import TimedPattern.Aggregate
import TimedPattern.Aggregate.Collector

/-!
# Aggregation over groups

A group that has been destroyed takes no rows and gives no result. A faulty pattern gives none
either.
-/

namespace TimedPattern

/-- A row as a query delivers it. Each column may be null. -/
structure Delivery where
  group : Nat
  pattern : Option ByteArray
  micros : Option Int
  behavior : Option ByteArray

namespace Delivery

/-- The text of a column. Bytes that are not UTF-8 count as null. -/
def text? (column : Option ByteArray) : Option String := column.bind String.fromUTF8?

end Delivery

namespace Collector

/-- Takes a delivered row: the pattern if there is none yet, and then the row itself if both of its
columns are there. -/
def accept (c : Collector) (d : Delivery) : Collector :=
  let c :=
    match Delivery.text? d.pattern with
    | some text => c.offerPattern text
    | none => c
  match d.micros, Delivery.text? d.behavior with
  | some micros, some behavior => c.record micros behavior
  | _, _ => c

end Collector

/-- Lists laid one behind the other: the offset and the length of each, and all their items. -/
structure ListColumn where
  entries : List (Nat × Nat)
  items : List Int
  deriving DecidableEq, Repr

namespace ListColumn

/-- Lays lists out from an offset on. -/
def lay (offset : Nat) : List (List Int) → ListColumn
  | [] => ⟨[], []⟩
  | l :: rest =>
    let column := lay (offset + l.length) rest
    ⟨(offset, l.length) :: column.entries, l ++ column.items⟩

end ListColumn

/-- The groups of a query, by number. A destroyed group is gone. -/
abbrev Groups := List (Option Collector)

namespace Groups

def fresh (n : Nat) : Groups := List.replicate n (some .empty)

def group? (gs : Groups) (i : Nat) : Option Collector := (gs[i]?).join

def accept (gs : Groups) (d : Delivery) : Groups := gs.modify d.group (Option.map (·.accept d))

def update (gs : Groups) (rows : List Delivery) : Groups := rows.foldl accept gs

/-- Merges one group into another, if both are there. The first one keeps its rows. -/
def mergeInto (gs : Groups) (pair : Nat × Nat) : Groups :=
  match gs.group? pair.1, gs.group? pair.2 with
  | some source, some target => gs.set pair.2 (some (target.merge source))
  | _, _ => gs

def combine (gs : Groups) (pairs : List (Nat × Nat)) : Groups := pairs.foldl mergeInto gs

def destroy (gs : Groups) (groups : List Nat) : Groups := groups.foldl (·.set · none) gs

/-- Asks groups for results, one after the other. A group that is asked sorts its rows and keeps its
pattern. -/
def finalize {α : Type} (result : Collector → Except PatternError α × Collector) (gs : Groups) :
    List Nat → List (Option α) × Groups
  | [] => ([], gs)
  | i :: rest =>
    match gs.group? i with
    | none =>
      let (values, gs) := finalize result gs rest
      (none :: values, gs)
    | some c =>
      let (value, c) := result c
      let (values, gs) := finalize result (gs.set i (some c)) rest
      (value.toOption :: values, gs)

/-- The result column of lists. No result is an empty list. -/
def finalizeLists (gs : Groups) (used : Nat) (groups : List Nat) : ListColumn × Groups :=
  let (values, gs) := finalize Collector.firstMatch gs groups
  (.lay used (values.map (·.getD [])), gs)

def askNotes (function : Aggregate) (c : Collector) : List Note :=
  match c.findMatches with
  | (.error e, _) => [.invalidPattern function.name e.message]
  | (.ok _, _) => c.notes

def finalizeNotes (function : Aggregate) (gs : Groups) : List Nat → List Note
  | [] => []
  | i :: rest =>
    match gs.group? i with
    | none => finalizeNotes function gs rest
    | some c =>
      askNotes function c ++ finalizeNotes function (gs.set i (some c.findMatches.2)) rest

end Groups

end TimedPattern
