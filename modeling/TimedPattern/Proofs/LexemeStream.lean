import TimedPattern.Proofs.Compiled
import TimedPattern.Proofs.Positions

/-! # The stream of lexemes -/

namespace TimedPattern

/-! ## Order -/

namespace Piece

theorem pairwise_lexemes {first last : Nat} {pieces : List Piece}
    (h : InOrder first last pieces) :
    (∀ l ∈ pieces.filterMap lexeme?, first ≤ l.position) ∧
      (pieces.filterMap lexeme?).Pairwise fun l m => l.position < m.position := by
  induction pieces generalizing first with
  | nil => simp
  | cons piece rest ih =>
    obtain ⟨hfirst, -, hrest⟩ := h
    cases hl : piece.lexeme? with
    | none =>
      rw [List.filterMap_cons_none hl]
      exact ih (hrest.mono (Nat.le_trans hfirst piece.first_le_stop))
    | some l =>
      obtain ⟨hstart, hstop⟩ := Lexeme.bounds_of_lexeme? hl
      obtain ⟨hle, hpairwise⟩ := ih hrest
      rw [List.filterMap_cons_some hl, List.pairwise_cons, List.forall_mem_cons]
      refine ⟨⟨by omega, fun m hm => ?_⟩, fun m hm => ?_, hpairwise⟩
      · have := hle m hm
        omega
      · have := hle m hm
        omega

end Piece

/-! ## Regions -/

namespace Symbol

def opensRegion (s : Symbol) : Bool := s = countOpen ∨ s = timingOpen

def closesRegion (s : Symbol) : Bool := s = countClose ∨ s = timingClose

theorem regionAfter_eq (inRegion : Bool) (s : Symbol) :
    s.regionAfter inRegion = (s.opensRegion || (inRegion && !s.closesRegion)) := by
  cases s <;> simp [regionAfter, opensRegion, closesRegion]

/-- Whether the symbol can occur inside a region, or outside of one. -/
def Fits (inRegion : Bool) : Symbol → Prop
  | flag c => inRegion = true ∧ c ∈ flags
  | next => inRegion = false
  | _ => True

theorem fits_ofChar? {inRegion : Bool} {c : Char} {s : Symbol}
    (h : ofChar? inRegion c = some s) : s.Fits inRegion := by
  unfold ofChar? at h
  split at h
  · rename_i bracket hbracket
    obtain rfl := Option.some.inj h
    unfold regionBracket? at hbracket
    split at hbracket <;> cases hbracket <;> trivial
  · split at h
    · rename_i hflag
      obtain rfl := Option.some.inj h
      exact hflag
    · unfold separator? at h
      split at h <;> cases h <;> trivial

theorem fits_ofPair? {inRegion : Bool} {c d : Char} {s : Symbol}
    (hnone : ofChar? inRegion c = none) (h : ofPair? c d = some s) : s.Fits inRegion := by
  unfold ofPair? at h
  split at h
  · obtain rfl := Option.some.inj h
    -- Inside a region the minus is a flag, so the arrow never forms.
    cases inRegion with
    | false => rfl
    | true => cases hnone
  · obtain rfl := Option.some.inj h
    trivial
  · cases h

end Symbol

namespace LexemeKind

/-- Symbols only where they fit, and behind every text a symbol or the end. -/
def Regular (inRegion : Bool) : List LexemeKind → Prop
  | [] => True
  | text _ :: rest => (∀ k ∈ rest.head?, ∃ s, k = symbol s) ∧ Regular inRegion rest
  | symbol s :: rest => s.Fits inRegion ∧ Regular (s.regionAfter inRegion) rest

variable {inRegion : Bool} {run : List Char}

theorem regular_flush : Regular inRegion (Lexeme.flush run) := by
  unfold Lexeme.flush
  split
  · trivial
  · exact ⟨by simp, trivial⟩

theorem regular_flush_symbol {s : Symbol} {rest : List LexemeKind} (hs : s.Fits inRegion)
    (h : Regular (s.regionAfter inRegion) rest) :
    Regular inRegion (Lexeme.flush run ++ symbol s :: rest) := by
  unfold Lexeme.flush
  split
  · exact ⟨hs, h⟩
  · exact ⟨by simp, hs, h⟩

theorem regular_kinds (inRegion : Bool) (run text : List Char) :
    Regular inRegion (Lexeme.kinds inRegion run text) := by
  fun_induction Lexeme.kinds inRegion run text with
  | case1 => exact regular_flush
  | case2 => exact regular_flush
  | case3 inRegion run c hc s hs => exact regular_flush_symbol (Symbol.fits_ofChar? hs) trivial
  | case4 => exact regular_flush
  | case5 inRegion run d rest ih => exact ih
  | case6 inRegion run c d rest hc s hs ih =>
    exact regular_flush_symbol (Symbol.fits_ofChar? hs) ih
  | case7 inRegion run c d rest hc hnone s hs ih =>
    -- Neither symbol of two characters is a region bracket.
    have hregion : s.regionAfter inRegion = inRegion := by
      unfold Symbol.ofPair? at hs
      split at hs
      · obtain rfl := Option.some.inj hs
        rfl
      · obtain rfl := Option.some.inj hs
        rfl
      · cases hs
    exact regular_flush_symbol (Symbol.fits_ofPair? hnone hs) (hregion.symm ▸ ih)
  | case8 inRegion run c d rest hc hnone hpair ih => exact ih

/-- Whether what follows the lexemes stands inside a region. -/
def regionAfter (inRegion : Bool) : List LexemeKind → Bool
  | [] => inRegion
  | text _ :: rest => regionAfter inRegion rest
  | symbol s :: rest => regionAfter (s.regionAfter inRegion) rest

theorem Regular.fits {before after : List LexemeKind} {s : Symbol}
    (h : Regular inRegion (before ++ symbol s :: after)) :
    s.Fits (regionAfter inRegion before) := by
  fun_induction regionAfter inRegion before with
  | case1 => exact h.1
  | case2 inRegion t rest ih => exact ih h.2
  | case3 inRegion s rest ih => exact ih h.2

theorem Regular.isChain {kinds : List LexemeKind} (h : Regular inRegion kinds) :
    kinds.IsChain fun k l => ∀ t u, ¬ (k = text t ∧ l = text u) := by
  fun_induction Regular inRegion kinds with
  | case1 => exact .nil
  | case2 inRegion t rest ih =>
    refine List.isChain_cons.2 ⟨?_, ih h.2⟩
    rintro k hk t u ⟨-, rfl⟩
    obtain ⟨s, hs⟩ := h.1 _ hk
    cases hs
  | case3 inRegion s rest ih =>
    refine List.isChain_cons.2 ⟨?_, ih h.2⟩
    rintro k hk t u ⟨ht, -⟩
    cases ht

/-- No lexeme is a region bracket. -/
def Unbracketed (kinds : List LexemeKind) : Prop :=
  ∀ s, symbol s ∈ kinds → s.opensRegion = false ∧ s.closesRegion = false

/-- A region is open behind the lexemes: one of them opens it, and no region bracket follows. -/
def Inside (kinds : List LexemeKind) : Prop :=
  ∃ before s inner, kinds = before ++ symbol s :: inner ∧ s.opensRegion = true ∧ Unbracketed inner

theorem inside_cons {k : LexemeKind} {rest : List LexemeKind} :
    Inside (k :: rest) ↔
      Inside rest ∨ ∃ s, k = symbol s ∧ s.opensRegion = true ∧ Unbracketed rest := by
  constructor
  · rintro ⟨before, s, inner, hkinds, hs, hinner⟩
    cases before with
    | nil =>
      obtain ⟨rfl, rfl⟩ := List.cons.inj hkinds
      exact .inr ⟨s, rfl, hs, hinner⟩
    | cons first before =>
      obtain ⟨rfl, rfl⟩ := List.cons.inj hkinds
      exact .inl ⟨before, s, inner, rfl, hs, hinner⟩
  · rintro (⟨before, s, inner, rfl, hs, hinner⟩ | ⟨s, rfl, hs, hinner⟩)
    · exact ⟨k :: before, s, inner, rfl, hs, hinner⟩
    · exact ⟨[], s, rest, rfl, hs, hinner⟩

theorem regionAfter_eq_true (inRegion : Bool) (kinds : List LexemeKind) :
    regionAfter inRegion kinds = true ↔ Inside kinds ∨ inRegion = true ∧ Unbracketed kinds := by
  fun_induction regionAfter inRegion kinds with
  | case1 inRegion => simp [Inside, Unbracketed]
  | case2 inRegion t rest ih => simp [ih, inside_cons, Unbracketed]
  | case3 inRegion s rest ih =>
    rw [ih, inside_cons, Symbol.regionAfter_eq]
    simp only [Unbracketed, List.mem_cons, symbol.injEq, Bool.or_eq_true, Bool.and_eq_true,
      Bool.not_eq_true']
    grind [Symbol.opensRegion, Symbol.closesRegion]

theorem regionAfter_false (kinds : List LexemeKind) :
    regionAfter false kinds = true ↔ Inside kinds := by
  simp [regionAfter_eq_true]

end LexemeKind

/-! ## The stream -/

namespace Lexeme

theorem pairwise_ofText (text : String) :
    (ofText text).Pairwise fun l m => l.position < m.position :=
  (Piece.pairwise_lexemes (Piece.inOrder_join false (Glyph.within_read 0 text.toList))).2

theorem regular_ofText (text : String) : LexemeKind.Regular false ((ofText text).map kind) := by
  rw [ofText, kind_ofChars]
  exact LexemeKind.regular_kinds false [] text.toList

/-- What holds of the lexemes of a text, whatever the text. -/
structure Stream (text : String) (lexemes : List Lexeme) : Prop where
  ordered : lexemes.Pairwise fun l m => l.position < m.position
  /-- The text spells every symbol at its byte. -/
  spelled : ∀ l ∈ lexemes, ∀ s, l.kind = .symbol s →
    ∃ before after, text.toList = before ++ s.spelling ++ after ∧
      l.position = Text.byteLength before
  trimmed : ∀ l ∈ lexemes, ∀ t, l.kind = .text t → Text.Trimmed t.toList
  /-- No two texts in a row. -/
  apart : lexemes.IsChain fun l m => ∀ t u, ¬ (l.kind = .text t ∧ m.kind = .text u)
  flagged : ∀ before l after, lexemes = before ++ l :: after → ∀ c, l.kind = .symbol (.flag c) →
    c ∈ Symbol.flags ∧ LexemeKind.Inside (before.map kind)
  arrows : ∀ before l after, lexemes = before ++ l :: after → l.kind = .symbol .next →
    ¬ LexemeKind.Inside (before.map kind)

theorem ofText_stream (text : String) : Stream text (ofText text) := by
  have hregular := regular_ofText text
  have hfits {before after : List Lexeme} {l : Lexeme} {s : Symbol}
      (hsplit : ofText text = before ++ l :: after) (hs : l.kind = .symbol s) :
      s.Fits (LexemeKind.regionAfter false (before.map kind)) := by
    rw [hsplit, List.map_append, List.map_cons, hs] at hregular
    exact hregular.fits
  refine ⟨pairwise_ofText text, fun l hl s hs => exists_spelling_of_mem hl hs,
    ofText_proper text, List.isChain_map kind |>.1 hregular.isChain, ?_, ?_⟩
  · intro before l after hsplit c hc
    obtain ⟨hinside, hflag⟩ := hfits hsplit hc
    exact ⟨hflag, (LexemeKind.regionAfter_false _).1 hinside⟩
  · intro before l after hsplit hnext hinside
    have houtside : LexemeKind.regionAfter false (before.map kind) = false := hfits hsplit hnext
    rw [(LexemeKind.regionAfter_false _).2 hinside] at houtside
    cases houtside

end Lexeme

end TimedPattern
