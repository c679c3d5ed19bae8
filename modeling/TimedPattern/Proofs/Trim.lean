import Mathlib.Data.List.Basic
import TimedPattern.Text.Blank

/-! # Trimmed text -/

namespace TimedPattern.Text

/-- A text that neither starts nor ends with white space. -/
structure Trimmed (text : List Char) : Prop where
  ne_nil : text ≠ []
  head : ∀ c, text.head? = some c → isBlank c = false
  last : ∀ c, text.getLast? = some c → isBlank c = false

theorem isBlank_head_trimStart {text : List Char} {c : Char} (h : (trimStart text).head? = some c) :
    isBlank c = false := by
  have hnot := List.head?_dropWhile_not isBlank text
  unfold trimStart at h
  rw [h] at hnot
  exact hnot

theorem trimStart_append {before text : List Char} (hbefore : ∀ c ∈ before, isBlank c = true)
    (hne : text ≠ []) (hhead : ∀ c, text.head? = some c → isBlank c = false) :
    trimStart (before ++ text) = text := by
  unfold trimStart
  rw [List.dropWhile_append_of_pos hbefore]
  cases text with
  | nil => exact absurd rfl hne
  | cons c rest => rw [List.dropWhile_cons_of_neg (by simp [hhead c rfl])]

theorem trimEnd_eq (text : List Char) : trimEnd text = (trimStart text.reverse).reverse := rfl

theorem trim_append {before text after : List Char} (h : Trimmed text)
    (hbefore : ∀ c ∈ before, isBlank c = true) (hafter : ∀ c ∈ after, isBlank c = true) :
    trim (before ++ text ++ after) = text := by
  have hhead : ∀ c, (text ++ after).head? = some c → isBlank c = false := by
    intro c hc
    rw [List.head?_append_of_ne_nil _ h.ne_nil] at hc
    exact h.head c hc
  unfold trim
  rw [List.append_assoc, trimStart_append hbefore (by simp [h.ne_nil]) hhead, trimEnd_eq,
    List.reverse_append, trimStart_append (by simpa using hafter) (by simpa using h.ne_nil),
    List.reverse_reverse]
  intro c hc
  rw [List.head?_reverse] at hc
  exact h.last c hc

theorem trimStart_of_blank {text : List Char} (h : ∀ c ∈ text, isBlank c = true) :
    trimStart text = [] := by
  unfold trimStart
  rw [← List.append_nil text, List.dropWhile_append_of_pos h]
  rfl

theorem trim_of_blank {text : List Char} (h : ∀ c ∈ text, isBlank c = true) : trim text = [] := by
  unfold trim
  rw [trimStart_of_blank h]
  rfl

theorem trimEnd_append_dropped (text : List Char) :
    trimEnd text ++ (text.reverse.takeWhile isBlank).reverse = text := by
  unfold trimEnd
  rw [← List.reverse_append, List.takeWhile_append_dropWhile, List.reverse_reverse]

theorem trimmed_trim {text : List Char} (hne : trim text ≠ []) : Trimmed (trim text) := by
  refine ⟨hne, fun c hc => ?_, fun c hc => ?_⟩
  · -- What is cut off the end leaves the head alone.
    have hstart := trimEnd_append_dropped (trimStart text)
    refine @isBlank_head_trimStart text c ?_
    rw [← hstart]
    exact (List.head?_append_of_ne_nil _ hne).trans hc
  · unfold trim at hc
    rw [trimEnd_eq, List.getLast?_reverse] at hc
    exact isBlank_head_trimStart hc

theorem trimEnd_append {text after : List Char} (h : ∀ c ∈ after, isBlank c = true) :
    trimEnd (text ++ after) = trimEnd text := by
  unfold trimEnd
  rw [List.reverse_append, List.dropWhile_append_of_pos (by simpa using h)]

theorem trim_append_blank (text : List Char) {after : List Char}
    (h : ∀ c ∈ after, isBlank c = true) : trim (text ++ after) = trim text := by
  unfold trim trimStart
  rw [List.dropWhile_append]
  split
  · rename_i hblank
    rw [List.isEmpty_iff.1 hblank]
    have hnil := trimStart_of_blank h
    unfold trimStart at hnil
    rw [hnil]
  · exact trimEnd_append h

theorem Trimmed.of_forall {text : List Char} (hne : text ≠ [])
    (h : ∀ c ∈ text, isBlank c = false) : Trimmed text :=
  ⟨hne, fun c hc => h c (List.mem_of_head? hc), fun c hc => h c (List.mem_of_getLast? hc)⟩

end TimedPattern.Text
