import TimedPattern.Aggregate.Groups

/-!
# Result vectors of lists

Each row of the vector says where its list starts in one buffer of items, and how long it is.
-/

namespace TimedPattern

structure ListVector where
  /-- The offset and the length of the list of each row. -/
  entries : List (Nat × Nat)
  /-- The items of all lists, and whatever stands in the rest of the room. -/
  buffer : List Int
  /-- The number of items in use. -/
  size : Nat
  inUse : size ≤ buffer.length

namespace ListVector

/-- The items in use. -/
def items (v : ListVector) : List Int := v.buffer.take v.size

/-- The list that an entry points to. -/
def list (v : ListVector) (entry : Nat × Nat) : List Int := (v.items.drop entry.1).take entry.2

/-- What a database does to make room in the buffer. It may move the items in use elsewhere. -/
structure Reserve where
  run : ListVector → Nat → ListVector
  room (v : ListVector) (n : Nat) : n ≤ (run v n).buffer.length
  entries_run (v : ListVector) (n : Nat) : (run v n).entries = v.entries
  items_run (v : ListVector) (n : Nat) : (run v n).items = v.items

/-- Makes room with zeros. -/
def Reserve.padded : Reserve where
  run v n :=
    { v with
      buffer := v.buffer ++ List.replicate (n - v.buffer.length) 0
      inUse := by
        rw [List.length_append]
        exact Nat.le_add_right_of_le v.inUse }
  room v n := by
    rw [List.length_append, List.length_replicate]
    omega
  entries_run _ _ := rfl
  items_run v _ := List.take_append_of_le_length v.inUse

/-- Writes items into a buffer, from a place on. What would be outside is lost. -/
def overwrite (buffer : List Int) (place : Nat) : List Int → List Int
  | [] => buffer
  | item :: rest => overwrite (buffer.set place item) (place + 1) rest

@[simp]
theorem length_overwrite (buffer : List Int) (place : Nat) (items : List Int) :
    (overwrite buffer place items).length = buffer.length := by
  induction items generalizing buffer place with
  | nil => rfl
  | cons item rest ih => simp [overwrite, ih]

/-- Puts a list at a place of the buffer, and its entry into a row. The items up to its end are in
use then. -/
def put (reserve : Reserve) (v : ListVector) (row place : Nat) (list : List Int) : ListVector where
  entries := (reserve.run v (place + list.length)).entries.set row (place, list.length)
  buffer := overwrite (reserve.run v (place + list.length)).buffer place list
  size := place + list.length
  inUse := by simpa using reserve.room v (place + list.length)

end ListVector

namespace Groups

/-- The list of a group, and the groups once it has been asked. No result is an empty list. -/
def askList (gs : Groups) (i : Nat) : List Int × Groups :=
  match gs.group? i with
  | none => ([], gs)
  | some c =>
    let (times, c) := c.firstMatch
    (times.toOption.getD [], gs.set i (some c))

/-- Asks groups for their lists, one after the other, and puts each of them where the one before
ends. -/
def putLists (reserve : ListVector.Reserve) (gs : Groups) (v : ListVector) (row place : Nat) :
    List Nat → ListVector × Groups
  | [] => (v, gs)
  | i :: rest =>
    let (list, gs) := gs.askList i
    putLists reserve gs (v.put reserve row place list) (row + 1) (place + list.length) rest

/-- Asks groups for their lists and puts them behind the items in use, with their entries from a row
on. -/
def finalizeInto (reserve : ListVector.Reserve) (gs : Groups) (v : ListVector) (first : Nat)
    (groups : List Nat) : ListVector × Groups :=
  gs.putLists reserve v first v.size groups

end Groups

end TimedPattern
