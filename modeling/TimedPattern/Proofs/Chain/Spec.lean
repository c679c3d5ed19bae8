import TimedPattern.Expression.Feed

/-!
# How a match of a chain splits

A chain is a pattern whose steps are single behaviors. Its matches split into a group of indices for
each step. Every group but the first may be empty, and moves the clock on if it is not.
-/

namespace TimedPattern

/-- A step that asks for one behavior, with both of its limits. -/
structure Link where
  behavior : BehaviorId
  name : String
  occurrences : Range
  timing : Range

namespace Link

/-- The step once it has matched some events. -/
def holding (l : Link) (matched : IndexSet) : Expression :=
  .leaf l.behavior l.name ⟨some l.occurrences, some l.timing, matched⟩

def step (l : Link) : Expression := l.holding ∅

end Link

/-- The moment that a window is measured from, and the one up to which the step before lets this one
wait. -/
structure Clock where
  baseline : Float
  deadline : Option Float

namespace Clock

/-- The end of a window, put off to the deadline where that is later. -/
def latest (c : Clock) (window : Range) : Float :=
  match c.deadline with
  | none => window.maximum
  | some deadline => later window.maximum (deadline - c.baseline)

structure Admits (c : Clock) (window : Range) (time : Float) : Prop where
  not_early : ¬ time - c.baseline < window.minimum
  not_late : ¬ c.latest window < time - c.baseline

/-- The clock after a step with some window has taken a group of events. -/
def after (c : Clock) (window : Range) (events : List Event) (group : List Nat) : Clock :=
  match group.getLast?.bind (events[·]?) with
  | none => c
  | some last => ⟨last.time, some (c.baseline + window.maximum)⟩

end Clock

/-- The event at an index has the behavior of a step and lies in its window. -/
def Link.Takes (l : Link) (events : List Event) (c : Clock) (i : Nat) : Prop :=
  ∃ event, events[i]? = some event ∧ event.behavior = l.behavior ∧ c.Admits l.timing event.time

/-- The groups of the steps that run once the clock is set. -/
inductive Fits (events : List Event) : Clock → List Link → List (List Nat) → Prop where
  | done (c : Clock) : Fits events c [] []
  | step {c : Clock} {l : Link} {links : List Link} {group : List Nat} {groups : List (List Nat)}
      (takes : ∀ i ∈ group, l.Takes events c i)
      (count : l.occurrences.containsCount group.length = true)
      (rest : Fits events (c.after l.timing events group) links groups) :
      Fits events c (l :: links) (group :: groups)

/-- The groups of all steps. The first event of all sets the clock, so no window bounds it. -/
inductive Split (events : List Event) : List Link → List (List Nat) → Prop where
  | start {l : Link} {links : List Link} {first : Nat} {event : Event} {group : List Nat}
      {groups : List (List Nat)}
      (first_event : events[first]? = some event)
      (first_behavior : event.behavior = l.behavior)
      (takes : ∀ i ∈ group, l.Takes events ⟨event.time, none⟩ i)
      (count : l.occurrences.containsCount (first :: group).length = true)
      (rest : Fits events (Clock.after ⟨event.time, none⟩ l.timing events (first :: group)) links
        groups) :
      Split events (l :: links) ((first :: group) :: groups)

end TimedPattern
