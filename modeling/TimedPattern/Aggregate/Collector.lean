import TimedPattern.Pattern.Notes

/-!
# Collecting rows

A collector takes timed behaviors in any order, and the text of one pattern. When it is asked it
sorts its rows and reads the pattern, which stays valid since the registry only grows.
-/

namespace TimedPattern

/-- One row: a time in microseconds and a behavior of the registry of its collector. -/
structure Row where
  micros : Int
  behavior : BehaviorId
  deriving DecidableEq, Repr

namespace Row

def event (r : Row) : Event := ⟨r.behavior, secondsOfMicros r.micros⟩

end Row

structure Collector where
  rows : List Row := []
  /-- The text of the pattern, once there is one. -/
  text : Option String := none
  registry : Registry := .empty
  /-- The pattern, once it has been read. -/
  compiled : Option Pattern := none

namespace Collector

def empty : Collector := {}

/-! ## Collecting -/

/-- Takes a pattern text, unless there is one. -/
def offerPattern (c : Collector) (text : String) : Collector :=
  { c with text := c.text <|> some text }

/-- Replaces the text. A pattern that has been read stays in use. -/
def overwritePattern (c : Collector) (text : Option String) : Collector := { c with text }

def record (c : Collector) (micros : Int) (behavior : String) : Collector :=
  let (id, registry) := c.registry.intern behavior
  { c with registry, rows := c.rows ++ [⟨micros, id⟩] }

/-- Adds the rows of another collector, with their names interned again. -/
def recordRows (c : Collector) (other : Registry) : List Row → Collector
  | [] => c
  | r :: rest =>
    match other.name? r.behavior with
    | some name => (c.record r.micros name).recordRows other rest
    | none => c.recordRows other rest

/-- Merges another collector into this one. Its pattern text is taken only if this one has none. -/
def merge (c other : Collector) : Collector :=
  let merged := c.recordRows other.registry other.rows
  match c.text with
  | some _ => merged
  | none => { merged with text := other.text, compiled := none }

/-! ## Results -/

/-- The rows in order of time. Rows of one time keep their order. -/
def sort (c : Collector) : Collector :=
  { c with rows := c.rows.mergeSort fun a b => a.micros ≤ b.micros }

def events (c : Collector) : List Event := c.rows.map Row.event

/-- The pattern, read if it has not been. A missing text is read as an empty one. What a search
leaves in the steps is not kept: the next one resets them (`Pattern.reset_leftBy`), so no later
answer depends on it. -/
def pattern (c : Collector) : Except PatternError Pattern × Collector :=
  match c.compiled with
  | some p => (.ok p, c)
  | none =>
    match Pattern.parse {} c.registry (c.text.getD "") with
    | (.error e, registry) => (.error e, { c with registry })
    | (.ok p, registry) => (.ok p, { c with registry, compiled := some p })

def findMatches (c : Collector) : Except PatternError (List (List Nat)) × Collector :=
  let (p, c) := c.sort.pattern
  (p.map fun p => p.findMatches c.events, c)

def hasMatch (c : Collector) : Except PatternError Bool × Collector :=
  let (found, c) := c.findMatches
  (found.map fun found => ! found.isEmpty, c)

def countMatches (c : Collector) : Except PatternError Nat × Collector :=
  let (found, c) := c.findMatches
  (found.map List.length, c)

/-- The times of the rows of the first match, or nothing. -/
def firstMatch (c : Collector) : Except PatternError (List Int) × Collector :=
  let (found, c) := c.findMatches
  let micros := fun (indices : List Nat) => indices.filterMap fun i => c.rows[i]?.map Row.micros
  (found.map fun found => (found.head?.map micros).getD [], c)

def notes (c : Collector) : List Note :=
  match c.sort.pattern with
  | (.error _, _) => []
  | (.ok p, after) =>
    (if c.compiled.isNone then p.parseNotes else []) ++ p.searchNotes after.events

end Collector

end TimedPattern
