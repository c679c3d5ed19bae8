/-!
# Behavior names

A name is interned once and then compared as a number, which it keeps as the registry grows.
-/

namespace TimedPattern

/-- The number of a behavior name in the registry that issued it. -/
structure BehaviorId where
  index : Nat
  deriving DecidableEq, Repr

namespace BehaviorId

def text (id : BehaviorId) : String := s!"#{id.index}"

end BehaviorId

/-- The interned names, in the order of their first interning. -/
structure Registry where
  names : List String
  nodup : names.Nodup

namespace Registry

def empty : Registry := ⟨[], List.nodup_nil⟩

def size (r : Registry) : Nat := r.names.length

def isEmpty (r : Registry) : Bool := r.names.isEmpty

/-- The number of a name that is already interned. -/
def get? (r : Registry) (name : String) : Option BehaviorId :=
  if name ∈ r.names then some ⟨r.names.idxOf name⟩ else none

/-- The name behind a number, unless this registry never issued it. -/
def name? (r : Registry) (id : BehaviorId) : Option String := r.names[id.index]?

/-- The number of a name. A new name gets the next free number. -/
def intern (r : Registry) (name : String) : BehaviorId × Registry :=
  if h : name ∈ r.names then (⟨r.names.idxOf name⟩, r)
  else (⟨r.size⟩, ⟨r.names ++ [name], by simp [List.nodup_append, r.nodup]; grind⟩)

/-! ## Names and numbers -/

/-- Looking up a name and looking up its number are inverse to each other. -/
theorem get?_eq_some_iff {r : Registry} {name : String} {id : BehaviorId} :
    r.get? name = some id ↔ r.name? id = some name := by
  obtain ⟨i⟩ := id
  simp only [get?, name?, List.getElem?_eq_some_iff]
  constructor
  · intro h
    split at h
    · rename_i hmem
      obtain rfl : r.names.idxOf name = i := by simpa using h
      exact ⟨List.idxOf_lt_length_of_mem hmem, List.getElem_idxOf _⟩
    · exact absurd h (by simp)
  · rintro ⟨hi, rfl⟩
    rw [if_pos (List.getElem_mem hi), r.nodup.idxOf_getElem i hi]

theorem names_prefix_intern (r : Registry) (name : String) :
    r.names <+: (r.intern name).2.names := by
  unfold intern
  split
  · exact List.prefix_refl _
  · exact List.prefix_append _ _

theorem name?_intern (r : Registry) (name : String) :
    (r.intern name).2.name? (r.intern name).1 = some name := by
  unfold intern
  split
  · rename_i h; exact get?_eq_some_iff.1 (by simp [get?, h])
  · simp [name?, size]

theorem name?_of_prefix {r s : Registry} (h : r.names <+: s.names) {id : BehaviorId}
    {name : String} (hname : r.name? id = some name) : s.name? id = some name := by
  obtain ⟨others, hothers⟩ := h
  unfold name? at hname ⊢
  rw [← hothers, List.getElem?_append_left (List.getElem?_eq_some_iff.1 hname).1]
  exact hname

theorem eq_of_name? {r : Registry} {b c : BehaviorId} {name : String} (hb : r.name? b = some name)
    (hc : r.name? c = some name) : b = c := by
  rw [← get?_eq_some_iff] at hb hc
  exact Option.some.inj (hb.symm.trans hc)

end Registry

end TimedPattern
