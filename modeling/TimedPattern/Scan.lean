import TimedPattern.Expression.Feed

/-!
# Scans

A scan remembers the last event that advanced the step, its anchor. What comes next starts just
after the anchor, except after the last step of a pattern, which has used up all that it looked at.
-/

namespace TimedPattern

structure Progress where
  index : Nat
  time : Float

inductive Ending where
  /-- The event at this index completed the step. -/
  | completed (index : Nat)
  | failed
  /-- The events ended in front of this index, with the outcome of the last one. -/
  | ranOut (index : Nat) (last : Outcome)
  deriving DecidableEq, Repr

structure Scan where
  start : Nat
  /-- The outcome of the root for each event that was fed. -/
  outcomes : List Outcome
  progress : Option Progress
  ending : Ending
  /-- The tree and the attempt after the last event. -/
  expression : Expression
  carried : Attempt

namespace Scan

/-- Running out of events is a success if the last outcome is a place to stop. -/
def isSatisfied (s : Scan) : Bool :=
  match s.ending with
  | .completed _ => true
  | .failed => false
  | .ranOut _ last => last.isAcceptable

/-- The last event that advanced the step, or else the start. -/
def anchor (s : Scan) : Nat := (s.progress.map Progress.index).getD s.start

/-- The attempt with the indices of a step that ended with the events. A step that completed earlier
has handed them over itself. -/
def collected (s : Scan) : Attempt :=
  match s.ending with
  | .ranOut _ last =>
    if last.isAcceptable then s.carried.collect s.expression.indices else s.carried
  | _ => s.carried

/-- The attempt after the scan. A satisfied step that advanced hands over its times. -/
def attempt (s : Scan) : Attempt :=
  match s.progress with
  | some p =>
    if s.isSatisfied then s.collected.handOver s.expression.ceiling p.time else s.collected
  | none => s.collected

/-- Where to look next: right after the anchor, but once the last step of a pattern is satisfied,
after all that it looked at. The event that completed it is left for the next attempt. -/
def resume (s : Scan) (isLast : Bool) : Nat :=
  if s.isSatisfied && isLast then
    match s.ending with
    | .completed index | .ranOut index _ => index
    | .failed => s.anchor + 1
  else s.anchor + 1

/-- Puts the outcome of an earlier event in front. -/
def after (s : Scan) (o : Outcome) : Scan := { s with outcomes := o :: s.outcomes }

end Scan

namespace Expression

/-- Feeds events from an index on, given the progress and the outcome so far. -/
def scanFrom (start : Nat) (progress : Option Progress) (last : Outcome) (index : Nat)
    (e : Expression) (a : Attempt) : List Event → Scan
  | [] => ⟨start, [], progress, .ranOut index last, e, a⟩
  | event :: rest =>
    let f := e.feed index event a
    if f.outcome.isFailure then ⟨start, [f.outcome], progress, .failed, f.expression, f.attempt⟩
    else if f.outcome = .completed then
      ⟨start, [f.outcome], progress, .completed index, f.expression, f.attempt⟩
    else
      let progress := if f.outcome.isStepped then some ⟨index, event.time⟩ else progress
      (scanFrom start progress f.outcome (index + 1) f.expression f.attempt rest).after f.outcome

def scan (e : Expression) (start : Nat) (a : Attempt) (events : List Event) : Scan :=
  e.scanFrom start none .invalid start a events

end Expression

end TimedPattern
