import Mathlib.Data.List.Forall2

/-!
# Sorting by a key

An ordered list is determined by its elements of each key, and sorting keeps these in order.
-/

namespace TimedPattern

variable {α : Type} (key : α → Int)

theorem key_trans (a b c : α) (hab : decide (key a ≤ key b) = true)
    (hbc : decide (key b ≤ key c) = true) : decide (key a ≤ key c) = true := by
  rw [decide_eq_true_eq] at *
  exact Int.le_trans hab hbc

theorem key_total (a b : α) : (decide (key a ≤ key b) || decide (key b ≤ key a)) = true := by
  rw [Bool.or_eq_true, decide_eq_true_eq, decide_eq_true_eq]
  exact Int.le_total ..

theorem pairwise_mergeSort_key (l : List α) :
    (l.mergeSort fun a b => key a ≤ key b).Pairwise fun a b => key a ≤ key b := by
  have hpairwise := List.pairwise_mergeSort (key_trans key) (key_total key) l
  exact hpairwise.imp of_decide_eq_true

theorem filter_mergeSort (l : List α) (k : Int) :
    (l.mergeSort fun a b => key a ≤ key b).filter (key · = k) = l.filter (key · = k) := by
  have hsublist : (l.filter (key · = k)).Sublist (l.mergeSort fun a b => key a ≤ key b) := by
    apply List.sublist_mergeSort (key_trans key) (key_total key) _ List.filter_sublist
    refine List.pairwise_of_forall_mem_list fun a ha b hb => ?_
    simp only [List.mem_filter, decide_eq_true_eq] at ha hb ⊢
    omega
  have hfiltered := hsublist.filter (key · = k)
  rw [List.filter_filter, List.filter_congr fun a _ => Bool.and_self _] at hfiltered
  have hperm := (List.mergeSort_perm l fun a b => key a ≤ key b).filter (key · = k)
  exact (hfiltered.eq_of_length hperm.length_eq.symm).symm

variable {key}

theorem mem_of_filter {l m : List α} (h : ∀ k, l.filter (key · = k) = m.filter (key · = k))
    {a : α} (ha : a ∈ l) : a ∈ m := by
  have hmem : a ∈ l.filter (key · = key a) := List.mem_filter.2 ⟨ha, by simp⟩
  rw [h] at hmem
  exact (List.mem_filter.1 hmem).1

theorem eq_of_filter {l m : List α} (hl : l.Pairwise fun a b => key a ≤ key b)
    (hm : m.Pairwise fun a b => key a ≤ key b)
    (h : ∀ k, l.filter (key · = k) = m.filter (key · = k)) : l = m := by
  induction l generalizing m with
  | nil =>
    cases m with
    | nil => rfl
    | cons b m =>
      have hb := mem_of_filter (fun k => (h k).symm) (List.mem_cons_self ..)
      exact absurd hb List.not_mem_nil
  | cons a l ih =>
    cases m with
    | nil => exact absurd (mem_of_filter h (List.mem_cons_self ..)) List.not_mem_nil
    | cons b m =>
      have hb := mem_of_filter (fun k => (h k).symm) (List.mem_cons_self ..)
      have ha := mem_of_filter h (List.mem_cons_self ..)
      rw [List.pairwise_cons] at hl hm
      have hle : key a ≤ key b := by
        rcases List.mem_cons.1 hb with hb | hb
        · exact Int.le_of_eq (congrArg key hb.symm)
        · exact hl.1 b hb
      have hge : key b ≤ key a := by
        rcases List.mem_cons.1 ha with ha | ha
        · exact Int.le_of_eq (congrArg key ha.symm)
        · exact hm.1 a ha
      -- Both are the first of one key, so they are the same.
      have hkey : key b = key a := Int.le_antisymm hge hle
      have hfirst := h (key a)
      simp only [List.filter_cons, hkey, decide_true, if_true, List.cons.injEq] at hfirst
      obtain ⟨rfl, -⟩ := hfirst
      refine congrArg (a :: ·) (ih hl.2 hm.2 fun k => ?_)
      have hk := h k
      rw [List.filter_cons, List.filter_cons] at hk
      split at hk
      · exact (List.cons.inj hk).2
      · exact hk

variable (key)

/-- Two lists are sorted alike if they have the same elements of each key in the same order. -/
theorem mergeSort_eq_iff {l m : List α} :
    (l.mergeSort fun a b => key a ≤ key b) = (m.mergeSort fun a b => key a ≤ key b) ↔
      ∀ k, l.filter (key · = k) = m.filter (key · = k) := by
  constructor
  · intro h k
    rw [← filter_mergeSort, h, filter_mergeSort]
  · intro h
    apply eq_of_filter (pairwise_mergeSort_key key l) (pairwise_mergeSort_key key m)
    intro k
    rw [filter_mergeSort, filter_mergeSort, h]

theorem mergeSort_append_congr {l l' m m' : List α}
    (hl : (l.mergeSort fun a b => key a ≤ key b) = l'.mergeSort fun a b => key a ≤ key b)
    (hm : (m.mergeSort fun a b => key a ≤ key b) = m'.mergeSort fun a b => key a ≤ key b) :
    ((l ++ m).mergeSort fun a b => key a ≤ key b) =
      (l' ++ m').mergeSort fun a b => key a ≤ key b := by
  rw [mergeSort_eq_iff] at hl hm ⊢
  intro k
  rw [List.filter_append, List.filter_append, hl, hm]

theorem mergeSort_append_comm {l m : List α} (h : ∀ a ∈ l, ∀ b ∈ m, key a ≠ key b) :
    ((l ++ m).mergeSort fun a b => key a ≤ key b) =
      (m ++ l).mergeSort fun a b => key a ≤ key b := by
  rw [mergeSort_eq_iff]
  intro k
  rw [List.filter_append, List.filter_append]
  by_cases hl : ∃ a ∈ l, key a = k
  · obtain ⟨a, ha, rfl⟩ := hl
    have hnone : m.filter (key · = key a) = [] := by
      rw [List.filter_eq_nil_iff]
      intro b hb
      simpa using (h a ha b hb).symm
    rw [hnone, List.append_nil, List.nil_append]
  · have hnone : l.filter (key · = k) = [] := by
      rw [List.filter_eq_nil_iff]
      intro a ha
      simp only [decide_eq_true_eq]
      intro hk
      exact hl ⟨a, ha, hk⟩
    rw [hnone, List.append_nil, List.nil_append]

end TimedPattern
