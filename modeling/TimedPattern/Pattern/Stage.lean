import TimedPattern.Pattern.Search

/-!
# Searching scan by scan

A search as stages, with one scan from each to the next. Whatever ends an attempt, the next one
starts with steps that have forgotten everything.
-/

namespace TimedPattern

structure Stage where
  /-- The steps that the attempt is done with, the latest first. -/
  done : List Expression
  todo : List Expression
  attempt : Attempt
  /-- Where the attempt started. -/
  start : Nat
  /-- Where the next scan starts. -/
  position : Nat
  found : List (List Nat)

namespace Stage

/-- An attempt that starts at a position with nothing matched or collected. -/
def fresh (p : Pattern) (position : Nat) (found : List (List Nat)) : Stage :=
  ⟨[], p.reset.steps, {}, position, position, found⟩

def first (p : Pattern) : Stage := fresh p 0 []

def steps (s : Stage) : List Expression := s.done.reverse ++ s.todo

/-- Another attempt, strictly after the start of this one. -/
def restart (s : Stage) (resume : Nat) : Stage :=
  let start := max resume (s.start + 1)
  ⟨[], s.steps.map Expression.reset, {}, start, start, s.found⟩

/-- Puts a match down, if there is one, and starts another attempt after all of it. -/
def complete (s : Stage) (indices : IndexSet) (resume : Nat) : Stage :=
  let found := if indices.isEmpty then s.found else s.found ++ [indices.toList]
  match indices.last? with
  | some last => { s with found }.restart (max resume (last + 1))
  | none => { s with found }.restart resume

def scan (events : List Event) (s : Stage) (step : Expression) : Scan :=
  step.scan s.position s.attempt (events.drop s.position)

/-- The stage after one more scan. There is none once the events have run out. -/
def next? (events : List Event) (s : Stage) : Option Stage :=
  match s.todo with
  | [] => none
  | step :: rest =>
    if s.position < events.length then
      let scan := s.scan events step
      let scanned := { s with todo := scan.expression :: rest }
      if scan.isSatisfied then
        if rest.isEmpty then some (scanned.complete scan.attempt.indices (scan.resume true))
        else
          some { s with
            done := scan.expression :: s.done
            todo := rest
            attempt := scan.attempt
            position := scan.resume false }
      else some (scanned.restart (scan.resume false))
    else none

end Stage

end TimedPattern
