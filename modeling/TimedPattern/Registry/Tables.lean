import Mathlib.Data.List.Basic
import TimedPattern.Registry

/-! # A registry in two tables -/

namespace TimedPattern

/-- A registry in two tables, the names by number and the numbers by name. -/
structure Tables where
  names : Array String
  ids : Std.HashMap String BehaviorId

namespace Tables

def empty : Tables := ⟨#[], ∅⟩

def size (t : Tables) : Nat := t.names.size

def get? (t : Tables) (name : String) : Option BehaviorId := t.ids[name]?

def name? (t : Tables) (id : BehaviorId) : Option String := t.names[id.index]?

/-- The number of a name. A new name is put into both tables. -/
def intern (t : Tables) (name : String) : BehaviorId × Tables :=
  match t.ids[name]? with
  | some id => (id, t)
  | none => (⟨t.size⟩, ⟨t.names.push name, t.ids.insert name ⟨t.size⟩⟩)

end Tables

end TimedPattern
