import TimedPattern.Registry

/-!
# Events

Events are expected in ascending order of time, which nothing here enforces.
-/

namespace TimedPattern

/-- One occurrence of a behavior. Only differences between times matter. -/
structure Event where
  behavior : BehaviorId
  time : Float
  deriving Repr

namespace Event

def named (registry : Registry) (name : String) (time : Float) : Event × Registry :=
  let (behavior, registry) := registry.intern name
  (⟨behavior, time⟩, registry)

/-- The events of names and times that are paired up in order. What is left of the longer list is
ignored. -/
def ofNames (registry : Registry) : List String → List Float → List Event × Registry
  | name :: names, time :: times =>
    let (event, registry) := named registry name time
    let (events, registry) := ofNames registry names times
    (event :: events, registry)
  | _, _ => ([], registry)

end Event

/-- The later of two times. The second one counts only if it is later for certain, which NaN is
not. -/
def later (x y : Float) : Float := if x < y then y else x

/-- Seconds from microseconds. Whole seconds and the rest, both taken toward zero, are converted
apart, so that times near zero keep every microsecond. -/
def secondsOfMicros (micros : Int) : Float :=
  Float.ofInt (micros.tdiv 1000000) + Float.ofInt (micros.tmod 1000000) / 1000000

end TimedPattern
