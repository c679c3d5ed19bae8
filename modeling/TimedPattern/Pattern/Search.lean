import TimedPattern.Pattern
import TimedPattern.Scan

/-!
# Finding matches

A trial runs the steps one after the other. The next one starts after the event where this one did,
and after every event of a match, so matches never overlap.
-/

namespace TimedPattern

inductive Verdict where
  /-- Every step was satisfied. The next trial may start looking at `resume`. -/
  | complete (indices : IndexSet) (resume : Nat)
  | failed (resume : Nat)
  /-- The events ran out between two steps. -/
  | unfinished

structure Trial where
  scans : List Scan
  verdict : Verdict

namespace Trial

def after (t : Trial) (s : Scan) : Trial := { t with scans := s :: t.scans }

/-- The match that the trial found. Steps may be satisfied without any event, which is no match. -/
def match? (t : Trial) : Option (List Nat) :=
  match t.verdict with
  | .complete indices _ => if indices.isEmpty then none else some indices.toList
  | _ => none

def next? (t : Trial) : Option Nat :=
  match t.verdict with
  | .complete indices resume =>
    match indices.last? with
    | some last => some (max resume (last + 1))
    | none => some resume
  | .failed resume => some resume
  | .unfinished => none

/-- Runs steps over the events from an index on. Each step looks on after the anchor of the one
before it. -/
def run (index : Nat) (a : Attempt) (events : List Event) : List Expression → Trial
  | [] => ⟨[], .unfinished⟩
  | step :: rest =>
    if events.isEmpty then ⟨[], .unfinished⟩
    else
      let s := step.scan index a events
      if s.isSatisfied then
        match rest with
        | [] => ⟨[s], .complete s.attempt.indices (s.resume true)⟩
        | _ :: _ =>
          let next := s.resume false
          (run next s.attempt (events.drop (next - index)) rest).after s
      else ⟨[s], .failed (s.resume false)⟩

/-- What steps hold after the trial: each what it held when its scan ended. -/
def left (t : Trial) (steps : List Expression) : List Expression :=
  t.scans.map Scan.expression ++ steps.drop t.scans.length

end Trial

namespace Pattern

def reset (p : Pattern) : Pattern := { p with steps := p.steps.map Expression.reset }

/-- The trials over the events from an index on, of which a number must be skipped first. Since the
walk takes one event at a time, the next trial always starts after the last one. -/
def trialsFrom (p : Pattern) : (index skip : Nat) → List Event → List Trial
  | _, _, [] => []
  | index, skip + 1, _ :: rest => trialsFrom p (index + 1) skip rest
  | index, 0, event :: rest =>
    let t := Trial.run index {} (event :: rest) p.steps
    match t.next? with
    | some next => t :: trialsFrom p (index + 1) (next - (index + 1)) rest
    | none => [t]

/-- The trials over all events. -/
def trials (p : Pattern) (events : List Event) : List Trial := p.reset.trialsFrom 0 0 events

/-- The matches, each the ascending list of the indices of its events. -/
def findMatches (p : Pattern) (events : List Event) : List (List Nat) :=
  (p.trials events).filterMap Trial.match?

/-- The pattern after some trials. Every trial ends with a reset, unless the events ran out between
two of its steps. -/
def leftAfter (p : Pattern) (trials : List Trial) : Pattern :=
  match trials.getLast? with
  | some t => if t.next?.isNone then { p with steps := t.left p.reset.steps } else p.reset
  | none => p.reset

/-- The pattern as the search leaves it. -/
def leftBy (p : Pattern) (events : List Event) : Pattern := p.leftAfter (p.trials events)

end Pattern

end TimedPattern
