import Mathlib.Data.List.Chain
import TimedPattern.Proofs.Positions

/-!
# Where texts stand

The place of a text is found by adding up the white space in front of it as it reads once escapes
are resolved. So it comes out too low by the bytes of these escapes.
-/

namespace TimedPattern

/-! ## Glyphs in a row -/

namespace Glyph

def isBlank (g : Glyph) : Bool := Text.isBlank g.char

/-- One glyph stands right behind the other, which may be escaped. -/
def Follows (g h : Glyph) : Prop :=
  h.position = g.position + g.char.utf8Size + Text.byteLength h.mark

theorem isChain_read (position : Nat) (text : List Char) :
    (read position text).IsChain Follows := by
  generalize hread : read position text = glyphs
  induction glyphs generalizing position text with
  | nil => exact .nil
  | cons g rest ih =>
    obtain ⟨back, -, -, hrest⟩ := exists_back_of_read hread
    refine List.isChain_cons.2 ⟨fun h hh => ?_, ih _ _ hrest⟩
    obtain ⟨rest, rfl⟩ := List.head?_eq_some_iff.1 hh
    obtain ⟨-, -, hposition, -⟩ := exists_back_of_read hrest
    exact hposition

/-- The bytes of the escapes in front of the glyphs, the first glyph left out. -/
def escapeBytes (glyphs : List Glyph) : Nat := Text.byteLength (glyphs.tail.flatMap mark)

theorem escapeBytes_eq_zero (glyphs : List Glyph) :
    escapeBytes glyphs = 0 ↔ ∀ g ∈ glyphs.tail, g.escaped = false := by
  have hnil : escapeBytes glyphs = 0 ↔ glyphs.tail.flatMap mark = [] := by
    constructor
    · intro hzero
      by_contra hne
      exact Nat.ne_of_gt (Text.byteLength_pos hne) hzero
    · intro hnil
      rw [escapeBytes, hnil]
      rfl
  simp [hnil, List.flatMap_eq_nil_iff, mark]

theorem position_of_isChain {first g : Glyph} {between rest : List Glyph}
    (h : (first :: between ++ g :: rest).IsChain Follows) :
    g.position = first.position + Text.byteLength ((first :: between).map Glyph.char) +
      Text.byteLength ((between ++ [g]).flatMap mark) := by
  induction between generalizing first with
  | nil =>
    have hfollows : Follows first g := (List.isChain_cons.1 h).1 g rfl
    simpa [Follows, Text.byteLength] using hfollows
  | cons next between ih =>
    obtain ⟨hhead, htail⟩ := List.isChain_cons.1 h
    have hfollows : Follows first next := hhead next rfl
    have hposition := ih htail
    rw [Follows] at hfollows
    rw [List.cons_append, List.flatMap_cons, Text.byteLength_append, List.map_cons,
      Text.byteLength]
    omega

theorem exists_place_of_mem {text : List Char} {g : Glyph} (hg : g ∈ read 0 text) :
    ∃ before after, text = before ++ g.char :: after ∧ g.position = Text.byteLength before := by
  obtain ⟨before, after, hread⟩ := List.append_of_mem hg
  obtain ⟨front, back, rfl, hback⟩ := exists_back_of_read_append hread
  obtain ⟨back, rfl, hposition, -⟩ := exists_back_of_read hback
  refine ⟨front ++ g.mark, back, by rw [List.append_assoc], ?_⟩
  rw [hposition, Nat.zero_add, Text.byteLength_append]

end Glyph

/-! ## Runs -/

namespace Piece

theorem prefix_of_join {inRegion : Bool} {glyphs : List Glyph} {first : Glyph}
    {others : List Glyph} {rest : List Piece}
    (h : join inRegion glyphs = run first others :: rest) : first :: others <+: glyphs := by
  fun_induction join inRegion glyphs generalizing first others rest with
  | case1 => cases h
  | case2 => cases h
  | case3 inRegion g hs =>
    obtain ⟨rfl, rfl⟩ := Piece.run.inj (List.cons.inj h).1
    exact List.prefix_rfl
  | case4 => cases h
  | case5 => cases h
  | case6 inRegion g other glyphs hs hpair ih =>
    unfold cons at h
    split at h
    · rename_i next others' pieces hjoin
      obtain ⟨rfl, rfl⟩ := Piece.run.inj (List.cons.inj h).1
      exact (List.prefix_cons_inj g).2 (ih hjoin)
    · obtain ⟨rfl, rfl⟩ := Piece.run.inj (List.cons.inj h).1
      exact ⟨other :: glyphs, rfl⟩

theorem infix_of_mem_join {inRegion : Bool} {glyphs : List Glyph} {first : Glyph}
    {others : List Glyph} (h : run first others ∈ join inRegion glyphs) :
    first :: others <:+: glyphs := by
  fun_induction join inRegion glyphs with
  | case1 => cases h
  | case2 => cases List.mem_singleton.1 h
  | case3 inRegion g hs =>
    obtain ⟨rfl, rfl⟩ := Piece.run.inj (List.mem_singleton.1 h)
    exact List.infix_rfl
  | case4 inRegion g other glyphs s hs ih =>
    rcases List.mem_cons.1 h with h | h
    · cases h
    · exact List.infix_cons (ih h)
  | case5 inRegion g other glyphs hs s hpair ih =>
    rcases List.mem_cons.1 h with h | h
    · cases h
    · exact List.infix_cons (List.infix_cons (ih h))
  | case6 inRegion g other glyphs hs hpair ih =>
    obtain ⟨others', rest, hcons, hrest⟩ := exists_cons_eq g (join inRegion (other :: glyphs))
    have hjoin := (Lexeme.join_plain hs (by simpa using hpair)).trans hcons
    rw [hcons] at h
    rcases List.mem_cons.1 h with h | h
    · obtain ⟨rfl, rfl⟩ := Piece.run.inj h
      exact (prefix_of_join hjoin).isInfix
    · exact List.infix_cons (ih (hrest _ h))

end Piece

/-! ## Texts -/

namespace Lexeme

/-- The run that a text is read from: white space, the glyph that the text starts with, and others
behind it. -/
structure Lead (text : String) (l : Lexeme) (blanks : List Glyph) (head : Glyph)
    (behind : List Glyph) : Prop where
  run : ∃ first others, Piece.run first others ∈ Piece.join false (Glyph.read 0 text.toList) ∧
    (Piece.run first others).lexeme? = some l ∧ first :: others = blanks ++ head :: behind
  blank : ∀ g ∈ blanks, g.isBlank = true
  kept : head.isBlank = false

variable {text : String} {l : Lexeme} {t : String}

theorem exists_lead (hl : l ∈ ofText text) (ht : l.kind = .text t) :
    ∃ blanks head behind, Lead text l blanks head behind := by
  obtain ⟨piece, hpiece, hlexeme⟩ := List.mem_filterMap.1 hl
  obtain ⟨first, others, rfl⟩ := exists_run_of_lexeme? hlexeme ht
  have hne := (lexeme?_run hlexeme).1
  have hsplit := @List.takeWhile_append_dropWhile _ Glyph.isBlank (first :: others)
  cases hdrop : (first :: others).dropWhile Glyph.isBlank with
  | nil =>
    refine absurd (Text.trim_of_blank fun c hc => ?_) hne
    obtain ⟨g, hg, rfl⟩ := List.mem_map.1 hc
    exact List.dropWhile_eq_nil_iff.1 hdrop g hg
  | cons head behind =>
    have hkept := List.head?_dropWhile_not Glyph.isBlank (first :: others)
    rw [hdrop] at hsplit hkept
    exact ⟨_, head, behind, ⟨first, others, hpiece, hlexeme, hsplit.symm⟩,
      fun g hg => List.mem_takeWhile_imp hg, hkept⟩

variable {blanks behind : List Glyph} {head : Glyph}

theorem Lead.mem (h : Lead text l blanks head behind) : head ∈ Glyph.read 0 text.toList := by
  obtain ⟨first, others, hrun, -, hglyphs⟩ := h.run
  refine (Piece.infix_of_mem_join hrun).subset ?_
  rw [hglyphs]
  simp

theorem Lead.isBlank (h : Lead text l blanks head behind) :
    ∀ c ∈ blanks.map Glyph.char, Text.isBlank c = true := by
  intro c hc
  obtain ⟨g, hg, rfl⟩ := List.mem_map.1 hc
  exact h.blank g hg

theorem Lead.takeWhile (h : Lead text l blanks head behind) :
    ((blanks ++ head :: behind).map Glyph.char).takeWhile Text.isBlank = blanks.map Glyph.char := by
  have hkept := h.kept
  rw [Glyph.isBlank] at hkept
  rw [List.map_append, List.takeWhile_append_of_pos h.isBlank, List.map_cons,
    List.takeWhile_cons_of_neg (by simp [hkept]), List.append_nil]

theorem Lead.trimStart (h : Lead text l blanks head behind) :
    Text.trimStart ((blanks ++ head :: behind).map Glyph.char) =
      (head :: behind).map Glyph.char := by
  rw [List.map_append]
  refine Text.trimStart_append h.isBlank (by simp) ?_
  rintro c ⟨⟩
  exact h.kept

theorem Lead.head? (h : Lead text l blanks head behind) (ht : l.kind = .text t) :
    t.toList.head? = some head.char := by
  obtain ⟨first, others, -, hlexeme, hglyphs⟩ := h.run
  obtain ⟨hne, rfl⟩ := lexeme?_run hlexeme
  obtain rfl := LexemeKind.text.inj ht
  rw [hglyphs, Text.trim, h.trimStart] at hne ⊢
  -- What is cut off the end leaves the head alone.
  have hsplit := Text.trimEnd_append_dropped ((head :: behind).map Glyph.char)
  rw [String.toList_ofList, ← List.head?_append_of_ne_nil _ hne, hsplit]
  rfl

theorem Lead.position (h : Lead text l blanks head behind) :
    l.position + Glyph.escapeBytes (blanks ++ [head]) = head.position := by
  obtain ⟨first, others, hrun, hlexeme, hglyphs⟩ := h.run
  obtain ⟨before, after, hread⟩ := Piece.infix_of_mem_join hrun
  have hchain := Glyph.isChain_read 0 text.toList
  rw [← hread] at hchain
  have hchain := hchain.left_of_append.right_of_append
  obtain ⟨-, rfl⟩ := lexeme?_run hlexeme
  rw [hglyphs] at hchain ⊢
  rw [h.takeWhile]
  cases blanks with
  | nil =>
    obtain ⟨rfl, -⟩ := List.cons.inj hglyphs
    rfl
  | cons blank blanks =>
    obtain ⟨rfl, -⟩ := List.cons.inj hglyphs
    -- The chain of the glyphs counts every escape behind the first one.
    exact (Glyph.position_of_isChain hchain).symm

/-- The place of a text falls short of its first character by the escapes that are not counted. -/
theorem position_text (hl : l ∈ ofText text) (ht : l.kind = .text t) :
    ∃ blanks head behind, Lead text l blanks head behind ∧ t.toList.head? = some head.char ∧
      (∃ before after, text.toList = before ++ head.char :: after ∧
        head.position = Text.byteLength before) ∧
      l.position + Glyph.escapeBytes (blanks ++ [head]) = head.position ∧
      (l.position = head.position ↔ ∀ g ∈ (blanks ++ [head]).tail, g.escaped = false) := by
  obtain ⟨blanks, head, behind, hlead⟩ := exists_lead hl ht
  have hposition := hlead.position
  refine ⟨blanks, head, behind, hlead, hlead.head? ht, Glyph.exists_place_of_mem hlead.mem,
    hposition, ?_⟩
  rw [← Glyph.escapeBytes_eq_zero]
  omega

/-- White space in front of an escape leaves the byte of the escape out. -/
theorem position_text_escaped :
    ⟨.text "Bee", 5⟩ ∈ ofText "A -> \\Bee" ∧
      ∃ blanks head behind, Lead "A -> \\Bee" ⟨.text "Bee", 5⟩ blanks head behind ∧
        "Bee".toList.head? = some head.char ∧
        (∃ before after, "A -> \\Bee".toList = before ++ head.char :: after ∧
          head.position = Text.byteLength before) ∧
        5 + Glyph.escapeBytes (blanks ++ [head]) = head.position ∧
        (5 = head.position ↔ ∀ g ∈ (blanks ++ [head]).tail, g.escaped = false) ∧
        head.position = 6 ∧ Glyph.escapeBytes (blanks ++ [head]) = 1 ∧
        ∃ g ∈ (blanks ++ [head]).tail, g.escaped = true := by
  have hmem : ⟨.text "Bee", 5⟩ ∈ ofText "A -> \\Bee" := by decide +kernel
  obtain ⟨blanks, head, behind, hlead, hhead, ⟨before, after, htext, hplace⟩, hposition, hexact⟩ :=
    position_text hmem rfl
  dsimp only at hposition hexact
  -- The letter B stands at one place only.
  have honly : ∀ n < 9, "A -> \\Bee".toList[n]? = some 'B' →
      Text.byteLength ("A -> \\Bee".toList.take n) = 6 := by decide +kernel
  have hsix : head.position = 6 := by
    have hlength : 9 = before.length + (after.length + 1) := by
      simpa using congrArg List.length htext
    have hcut := honly before.length (by omega)
    rw [htext, List.take_left, List.getElem?_append_right (Nat.le_refl _), Nat.sub_self,
      List.getElem?_cons_zero, ← hhead] at hcut
    rw [hplace]
    exact hcut rfl
  refine ⟨hmem, blanks, head, behind, hlead, hhead, ⟨before, after, htext, hplace⟩, hposition,
    hexact, hsix, by omega, ?_⟩
  have hshort : ¬ ∀ g ∈ (blanks ++ [head]).tail, g.escaped = false :=
    fun hplain => absurd (hexact.2 hplain) (by omega)
  simpa using hshort

/-- An escaped space of three bytes moves the place of the text inside the space. -/
theorem position_text_inside : ¬ ∀ text, ∀ l ∈ ofText text, ∀ t, l.kind = .text t →
    ∃ before c after, text.toList = before ++ c :: after ∧ t.toList.head? = some c ∧
      l.position = Text.byteLength before := by
  intro h
  have hmem : ⟨.text "A", 4⟩ ∈ ofText " \\\u3000A" := by decide +kernel
  obtain ⟨before, c, after, htext, -, hplace⟩ := h _ _ hmem "A" rfl
  have hcut : ∀ n < 4, Text.byteLength (" \\\u3000A".toList.take n) ≠ 4 := by decide +kernel
  have hlength : 4 = before.length + (after.length + 1) := by
    simpa using congrArg List.length htext
  refine hcut before.length (by omega) ?_
  rw [htext, List.take_left]
  exact hplace.symm

end Lexeme

end TimedPattern
