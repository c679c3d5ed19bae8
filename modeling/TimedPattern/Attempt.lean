import TimedPattern.Event
import TimedPattern.IndexSet
import TimedPattern.Range

/-!
# Attempts

What the steps of one attempt share.
-/

namespace TimedPattern

structure Attempt where
  /-- Unset until the first event matches. -/
  baseline : Option Float := none
  /-- The last moment that the window of the step before allows. -/
  deadline : Option Float := none
  indices : IndexSet := ∅

/-- Where an event lies with respect to a window. -/
inductive Phase where
  | early
  | inside
  | late
  deriving DecidableEq, Repr

namespace Attempt

/-- The latest moment of a window, in seconds after the baseline. The deadline can put it off. -/
def latest (a : Attempt) (baseline : Float) (window : Range) : Float :=
  match a.deadline with
  | some deadline => later window.maximum (deadline - baseline)
  | none => window.maximum

/-- Where a time lies with respect to a window. Without a baseline every time is inside. -/
def phase (a : Attempt) (time : Float) : Option Range → Phase
  | none => .inside
  | some window =>
    match a.baseline with
    | none => .inside
    | some baseline =>
      if time - baseline < window.minimum then .early
      else if a.latest baseline window < time - baseline then .late
      else .inside

def collect (a : Attempt) (indices : IndexSet) : Attempt :=
  { a with indices := a.indices ∪ indices }

/-- Sets the baseline, unless it is set already. -/
def start (a : Attempt) (time : Float) : Attempt := { a with baseline := a.baseline <|> some time }

/-- Hands the attempt on to the next step: the baseline moves to the last event of this step, and
the deadline to the end of its window. -/
def handOver (a : Attempt) (ceiling : Option Float) (time : Float) : Attempt :=
  match a.baseline, ceiling with
  | some baseline, some c => { a with baseline := some time, deadline := some (baseline + c) }
  | _, _ => { a with baseline := some time }

end Attempt

end TimedPattern
