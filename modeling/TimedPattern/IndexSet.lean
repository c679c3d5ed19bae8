/-!
# Sets of event indices

The members in ascending order, so that two sets with the same members are equal (`IndexSet.ext`).
-/

namespace TimedPattern

structure IndexSet where
  toList : List Nat
  ascending : toList.Pairwise (· < ·)

namespace IndexSet

instance : EmptyCollection IndexSet := ⟨⟨[], .nil⟩⟩

instance : Inhabited IndexSet := ⟨∅⟩

instance : Membership Nat IndexSet := ⟨fun s i => i ∈ s.toList⟩

instance : DecidableEq IndexSet := fun s t =>
  if h : s.toList = t.toList then .isTrue (by cases s; cases t; simp_all)
  else .isFalse (by intro e; exact h (congrArg toList e))

instance : Repr IndexSet := ⟨fun s => reprPrec s.toList⟩

instance (i : Nat) (s : IndexSet) : Decidable (i ∈ s) := inferInstanceAs (Decidable (i ∈ s.toList))

/-- Puts an index in its place. One that is there stays there once. -/
def place (i : Nat) : List Nat → List Nat
  | [] => [i]
  | j :: rest => if i < j then i :: j :: rest else if i = j then j :: rest else j :: place i rest

theorem mem_place {i j : Nat} {l : List Nat} : j ∈ place i l ↔ j = i ∨ j ∈ l := by
  induction l with
  | nil => simp [place]
  | cons k rest ih => grind [place]

theorem pairwise_place {i : Nat} {l : List Nat} (h : l.Pairwise (· < ·)) :
    (place i l).Pairwise (· < ·) := by
  induction l with
  | nil => simp [place]
  | cons k rest ih =>
    rw [List.pairwise_cons] at h
    unfold place
    split
    · grind [List.pairwise_cons]
    · split
      · grind [List.pairwise_cons]
      · rw [List.pairwise_cons]
        refine ⟨fun j hj => ?_, ih h.2⟩
        rcases mem_place.1 hj with rfl | hj
        · omega
        · exact h.1 j hj

def insert (s : IndexSet) (i : Nat) : IndexSet := ⟨place i s.toList, pairwise_place s.ascending⟩

def union (s t : IndexSet) : IndexSet := t.toList.foldl insert s

instance : Union IndexSet := ⟨union⟩

def ofList (l : List Nat) : IndexSet := l.foldl insert ∅

def size (s : IndexSet) : Nat := s.toList.length

def isEmpty (s : IndexSet) : Bool := s.toList.isEmpty

def last? (s : IndexSet) : Option Nat := s.toList.getLast?

theorem mem_iff_mem_toList {i : Nat} {s : IndexSet} : i ∈ s ↔ i ∈ s.toList := Iff.rfl

@[simp] theorem not_mem_empty (i : Nat) : ¬ i ∈ (∅ : IndexSet) := List.not_mem_nil

@[simp] theorem mem_insert {s : IndexSet} {i j : Nat} : j ∈ s.insert i ↔ j = i ∨ j ∈ s := mem_place

theorem mem_foldl_insert {l : List Nat} {s : IndexSet} {i : Nat} :
    i ∈ l.foldl insert s ↔ i ∈ s ∨ i ∈ l := by
  induction l generalizing s with
  | nil => simp
  | cons j rest ih => simp only [List.foldl_cons, ih, mem_insert, List.mem_cons]; grind

@[simp] theorem mem_union {s t : IndexSet} {i : Nat} : i ∈ s ∪ t ↔ i ∈ s ∨ i ∈ t :=
  mem_foldl_insert

@[simp] theorem mem_ofList {l : List Nat} {i : Nat} : i ∈ ofList l ↔ i ∈ l := by
  simp [ofList, mem_foldl_insert]

theorem eq_of_ascending {l m : List Nat} (hl : l.Pairwise (· < ·)) (hm : m.Pairwise (· < ·))
    (h : ∀ i, i ∈ l ↔ i ∈ m) : l = m := by
  induction l generalizing m with
  | nil => cases m with
    | nil => rfl
    | cons j rest => exact absurd ((h j).2 (by simp)) (by simp)
  | cons i l ih =>
    cases m with
    | nil => exact absurd ((h i).1 (by simp)) (by simp)
    | cons j m =>
      rw [List.pairwise_cons] at hl hm
      obtain rfl : i = j := by
        have hi := (h i).1 (by simp)
        have hj := (h j).2 (by simp)
        rw [List.mem_cons] at hi hj
        rcases hi with rfl | hi
        · rfl
        · rcases hj with rfl | hj
          · rfl
          · have := hl.1 j hj; have := hm.1 i hi; omega
      rw [ih hl.2 hm.2 fun k => ?_]
      have hk := h k
      simp only [List.mem_cons] at hk
      constructor
      · intro hkl
        rcases hk.1 (.inr hkl) with rfl | hkm
        · have := hl.1 k hkl; omega
        · exact hkm
      · intro hkm
        rcases hk.2 (.inr hkm) with rfl | hkl
        · have := hm.1 k hkm; omega
        · exact hkl

@[ext] theorem ext {s t : IndexSet} (h : ∀ i, i ∈ s ↔ i ∈ t) : s = t := by
  have e := eq_of_ascending s.ascending t.ascending h
  cases s; cases t; simp_all

theorem union_comm (s t : IndexSet) : s ∪ t = t ∪ s := by
  ext i
  rw [mem_union, mem_union, or_comm]

theorem union_assoc (s t u : IndexSet) : s ∪ t ∪ u = s ∪ (t ∪ u) := by
  ext i
  rw [mem_union, mem_union, mem_union, mem_union, or_assoc]

end IndexSet

end TimedPattern
