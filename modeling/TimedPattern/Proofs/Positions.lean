import Mathlib.Data.String.Basic
import TimedPattern.Proofs.NameText

/-!
# Places in a text

Escapes are bytes of the text, but not of what is read. Still no place ends up behind the text.
-/

namespace TimedPattern

theorem Text.byteLength_pos {text : List Char} (h : text ≠ []) : 0 < byteLength text := by
  cases text with
  | nil => exact absurd rfl h
  | cons c rest => exact Nat.add_pos_left c.utf8Size_pos _

theorem Text.byteLength_toList (text : String) : byteLength text.toList = text.utf8ByteSize := by
  have hlength (chars : List Char) : byteLength chars = String.utf8Len chars := by
    induction chars with
    | nil => rfl
    | cons c chars ih => rw [byteLength, String.utf8Len, ih, Nat.add_comm]
  rw [hlength, ← String.utf8ByteSize_ofList, String.ofList_toList]

/-! ## Glyphs -/

namespace Glyph

/-- The glyphs stand one behind the other between two places. -/
def Within (first stop : Nat) : List Glyph → Prop
  | [] => True
  | g :: rest => first ≤ g.position ∧ g.position + g.char.utf8Size ≤ stop ∧
    Within (g.position + g.char.utf8Size) stop rest

theorem within_read (position : Nat) (text : List Char) :
    Within position (position + Text.byteLength text) (read position text) := by
  fun_induction read position text with
  | case1 => trivial
  | case2 => trivial
  | case3 position c hplain => exact ⟨Nat.le_refl _, Nat.le_refl _, trivial⟩
  | case4 position d rest after ih =>
    have hsize := Nat.le_add_right position Symbol.escape.utf8Size
    simp only [Text.byteLength, after, ← Nat.add_assoc] at ih ⊢
    exact ⟨hsize, Nat.le_add_right _ _, ih⟩
  | case5 position c d rest after hplain ih =>
    simp only [Text.byteLength, after, ← Nat.add_assoc] at ih ⊢
    exact ⟨Nat.le_refl _, by dsimp only; omega, ih⟩

/-- The escape in front of a glyph, if it has one. -/
def mark (g : Glyph) : List Char := if g.escaped then [Symbol.escape] else []

theorem exists_back_of_read {position : Nat} {text : List Char} {g : Glyph} {rest : List Glyph}
    (hread : read position text = g :: rest) :
    ∃ back, text = g.mark ++ g.char :: back ∧ g.position = position + Text.byteLength g.mark ∧
      read (g.position + g.char.utf8Size) back = rest := by
  cases text with
  | nil => cases hread
  | cons c text =>
    by_cases hc : c = Symbol.escape
    · cases text with
      | nil => simp [read, hc] at hread
      | cons d text =>
        rw [read, if_pos hc] at hread
        obtain ⟨rfl, rfl⟩ := List.cons.inj hread
        exact ⟨text, by simp [mark, hc], by simp [mark, Text.byteLength, hc], rfl⟩
    · rw [Lexeme.read_cons hc] at hread
      obtain ⟨rfl, rfl⟩ := List.cons.inj hread
      exact ⟨text, rfl, rfl, rfl⟩

theorem exists_back_of_read_append {position : Nat} {text : List Char} {before after : List Glyph}
    (hread : read position text = before ++ after) :
    ∃ front back, text = front ++ back ∧ read (position + Text.byteLength front) back = after := by
  induction before generalizing position text with
  | nil => exact ⟨[], text, rfl, hread⟩
  | cons g before ih =>
    obtain ⟨back, rfl, hposition, hrest⟩ := exists_back_of_read hread
    obtain ⟨front, back, rfl, hafter⟩ := ih hrest
    refine ⟨g.mark ++ g.char :: front, back, by simp, ?_⟩
    rw [← hafter, hposition, Text.byteLength_append, Text.byteLength]
    simp only [Nat.add_assoc]

theorem exists_row_of_read {position : Nat} {text : List Char} {row after : List Glyph}
    (hread : read position text = row ++ after) (hrow : ∀ g ∈ row, g.escaped = false) :
    ∃ back, text = row.map Glyph.char ++ back ∧ ∀ g ∈ row.head?, g.position = position := by
  induction row generalizing position text with
  | nil => exact ⟨text, rfl, by simp⟩
  | cons g row ih =>
    have hg : g.mark = [] := by simp [mark, hrow g List.mem_cons_self]
    obtain ⟨back, rfl, hposition, hrest⟩ := exists_back_of_read hread
    obtain ⟨back, rfl, -⟩ := ih hrest fun h hh => hrow h (List.mem_cons_of_mem _ hh)
    rw [hg] at hposition ⊢
    exact ⟨back, rfl, by simpa [Text.byteLength] using hposition⟩

end Glyph

/-! ## Symbols -/

namespace Symbol

theorem spelling_ofChar? {inRegion : Bool} {c : Char} {s : Symbol}
    (h : ofChar? inRegion c = some s) : s.spelling = [c] := by
  unfold ofChar? regionBracket? separator? at h
  grind [spelling]

theorem spelling_ofPair? {c d : Char} {s : Symbol} (h : ofPair? c d = some s) :
    s.spelling = [c, d] := by
  unfold ofPair? at h
  grind [spelling]

end Symbol

/-! ## Pieces -/

namespace Piece

variable {g : Glyph}

/-- Glyphs that spell a symbol, none of them escaped, and the first one at a place. -/
structure Spells (row : List Glyph) (s : Symbol) (place : Nat) : Prop where
  plain : ∀ g ∈ row, g.escaped = false
  chars : row.map Glyph.char = s.spelling
  head : row.head?.map Glyph.position = some place

theorem spells_symbol? {inRegion : Bool} {s : Symbol} (h : g.symbol? inRegion = some s) :
    Spells [g] s g.position := by
  unfold Glyph.symbol? at h
  split at h
  · cases h
  · rename_i hplain
    exact ⟨by simpa using hplain, by rw [Symbol.spelling_ofChar? h]; rfl, rfl⟩

theorem spells_pair? {h : Glyph} {s : Symbol} (hs : g.pair? h = some s) :
    Spells [g, h] s g.position := by
  unfold Glyph.pair? at hs
  split at hs
  · cases hs
  · rename_i hplain
    exact ⟨by simpa using hplain, by rw [Symbol.spelling_ofPair? hs]; rfl, rfl⟩

theorem exists_cons_eq (g : Glyph) (pieces : List Piece) :
    ∃ others rest, cons g pieces = run g others :: rest ∧ ∀ piece ∈ rest, piece ∈ pieces := by
  unfold cons
  split
  · rename_i other others rest
    exact ⟨other :: others, rest, rfl, fun piece hpiece => List.mem_cons_of_mem _ hpiece⟩
  · exact ⟨[], pieces, rfl, fun piece hpiece => hpiece⟩

theorem mem_of_mem_cons {s : Symbol} {position : Nat} {pieces : List Piece}
    (h : symbol s position ∈ cons g pieces) : symbol s position ∈ pieces := by
  obtain ⟨others, rest, hcons, hrest⟩ := exists_cons_eq g pieces
  rw [hcons] at h
  rcases List.mem_cons.1 h with h | h
  · cases h
  · exact hrest _ h

theorem exists_row_of_mem_join {inRegion : Bool} {glyphs : List Glyph} {s : Symbol} {place : Nat}
    (h : symbol s place ∈ join inRegion glyphs) :
    ∃ before row after, glyphs = before ++ row ++ after ∧ Spells row s place := by
  fun_induction join inRegion glyphs with
  | case1 => cases h
  | case2 inRegion g s' hs =>
    obtain ⟨rfl, rfl⟩ := Piece.symbol.inj (List.mem_singleton.1 h)
    exact ⟨[], [g], [], rfl, spells_symbol? hs⟩
  | case3 inRegion g hs => cases List.mem_singleton.1 h
  | case4 inRegion g other rest s' hs ih =>
    rcases List.mem_cons.1 h with h | h
    · obtain ⟨rfl, rfl⟩ := Piece.symbol.inj h
      exact ⟨[], [g], other :: rest, rfl, spells_symbol? hs⟩
    · obtain ⟨before, row, after, hglyphs, hspells⟩ := ih h
      exact ⟨g :: before, row, after, congrArg (g :: ·) hglyphs, hspells⟩
  | case5 inRegion g other rest hs s' hpair ih =>
    rcases List.mem_cons.1 h with h | h
    · obtain ⟨rfl, rfl⟩ := Piece.symbol.inj h
      exact ⟨[], [g, other], rest, rfl, spells_pair? hpair⟩
    · obtain ⟨before, row, after, hglyphs, hspells⟩ := ih h
      exact ⟨g :: other :: before, row, after, congrArg (g :: other :: ·) hglyphs, hspells⟩
  | case6 inRegion g other rest hs hpair ih =>
    obtain ⟨before, row, after, hglyphs, hspells⟩ := ih (mem_of_mem_cons h)
    exact ⟨g :: before, row, after, congrArg (g :: ·) hglyphs, hspells⟩

def first : Piece → Nat
  | symbol _ position => position
  | run g _ => g.position

/-- Where a piece ends, at the earliest. Escapes inside a run are not counted. -/
def stop : Piece → Nat
  | symbol s position => position + Text.byteLength s.spelling
  | run g others => g.position + Text.byteLength ((g :: others).map Glyph.char)

theorem first_le_stop (piece : Piece) : piece.first ≤ piece.stop := by
  cases piece with
  | symbol s position => exact Nat.le_add_right _ _
  | run g others => exact Nat.le_add_right _ _

/-- The pieces stand one behind the other between two places. -/
def InOrder (first last : Nat) : List Piece → Prop
  | [] => True
  | piece :: rest => first ≤ piece.first ∧ piece.stop ≤ last ∧ InOrder piece.stop last rest

variable {first last : Nat}

theorem InOrder.mono {earlier : Nat} {pieces : List Piece} (h : InOrder first last pieces)
    (hle : earlier ≤ first) : InOrder earlier last pieces := by
  cases pieces with
  | nil => trivial
  | cons piece rest => exact ⟨Nat.le_trans hle h.1, h.2⟩

theorem InOrder.cons {pieces : List Piece} (hfirst : first ≤ g.position)
    (hlast : g.position + g.char.utf8Size ≤ last)
    (h : InOrder (g.position + g.char.utf8Size) last pieces) :
    InOrder first last (cons g pieces) := by
  unfold Piece.cons
  split
  · rename_i other others rest
    obtain ⟨hother, hstop, hrest⟩ := h
    simp only [stop, Piece.first, List.map_cons, Text.byteLength] at hother hstop hrest
    refine ⟨hfirst, ?_, hrest.mono ?_⟩
    · simp only [stop, List.map_cons, Text.byteLength]
      omega
    · simp only [stop, List.map_cons, Text.byteLength]
      omega
  · exact ⟨hfirst, hlast, h⟩

theorem stop_of_symbol? {inRegion : Bool} {s : Symbol} (hs : g.symbol? inRegion = some s) :
    (symbol s g.position).stop = g.position + g.char.utf8Size := by
  rw [stop, ← (spells_symbol? hs).chars]
  rfl

theorem inOrder_join (inRegion : Bool) {glyphs : List Glyph} (h : Glyph.Within first last glyphs) :
    InOrder first last (join inRegion glyphs) := by
  fun_induction join inRegion glyphs generalizing first with
  | case1 => trivial
  | case2 inRegion g s hs => exact ⟨h.1, (stop_of_symbol? hs).trans_le h.2.1, trivial⟩
  | case3 inRegion g hs => exact ⟨h.1, h.2.1, trivial⟩
  | case4 inRegion g other rest s hs ih =>
    refine ⟨h.1, ?_⟩
    rw [stop_of_symbol? hs]
    exact ⟨h.2.1, ih h.2.2⟩
  | case5 inRegion g other rest hs s hpair ih =>
    obtain ⟨hfirst, -, hother, hlast, hrest⟩ := h
    have hstop : (symbol s g.position).stop ≤ other.position + other.char.utf8Size := by
      rw [stop, ← (spells_pair? hpair).chars]
      simp only [List.map_cons, List.map_nil, Text.byteLength]
      omega
    exact ⟨hfirst, Nat.le_trans hstop hlast, (ih hrest).mono hstop⟩
  | case6 inRegion g other rest hs hpair ih => exact (ih h.2.2).cons h.1 h.2.1

theorem InOrder.stop_le {pieces : List Piece} (h : InOrder first last pieces) :
    ∀ piece ∈ pieces, piece.stop ≤ last := by
  induction pieces generalizing first with
  | nil => simp
  | cons piece rest ih => exact List.forall_mem_cons.2 ⟨h.2.1, ih h.2.2⟩

end Piece

/-! ## Lexemes -/

namespace Lexeme

theorem exists_run_of_lexeme? {piece : Piece} {l : Lexeme} (hl : piece.lexeme? = some l)
    {t : String} (ht : l.kind = .text t) : ∃ first others, piece = .run first others := by
  cases piece with
  | symbol s position =>
    obtain rfl := Option.some.inj hl
    cases ht
  | run first others => exact ⟨first, others, rfl⟩

theorem lexeme?_run {first : Glyph} {others : List Glyph} {l : Lexeme}
    (hl : (Piece.run first others).lexeme? = some l) :
    Text.trim ((first :: others).map Glyph.char) ≠ [] ∧
      l = ⟨.text (String.ofList (Text.trim ((first :: others).map Glyph.char))), first.position +
        Text.byteLength (((first :: others).map Glyph.char).takeWhile Text.isBlank)⟩ := by
  unfold Piece.lexeme? at hl
  dsimp only at hl
  split at hl
  · cases hl
  · rename_i hne
    exact ⟨hne, (Option.some.inj hl).symm⟩

theorem symbol_of_lexeme? {piece : Piece} {l : Lexeme} (hl : piece.lexeme? = some l) {s : Symbol}
    (hs : l.kind = .symbol s) : piece = .symbol s l.position := by
  cases piece with
  | symbol s position =>
    obtain rfl := Option.some.inj hl
    obtain rfl := LexemeKind.symbol.inj hs
    rfl
  | run g others =>
    obtain ⟨-, rfl⟩ := lexeme?_run hl
    cases hs

theorem bounds_of_lexeme? {piece : Piece} {l : Lexeme} (hl : piece.lexeme? = some l) :
    piece.first ≤ l.position ∧ l.position < piece.stop := by
  cases piece with
  | symbol s position =>
    obtain rfl := Option.some.inj hl
    have hspelling : s.spelling ≠ [] := by cases s <;> simp [Symbol.spelling]
    exact ⟨Nat.le_refl _, Nat.lt_add_of_pos_right (Text.byteLength_pos hspelling)⟩
  | run g others =>
    obtain ⟨hne, rfl⟩ := lexeme?_run hl
    refine ⟨Nat.le_add_right _ _, ?_⟩
    rw [Piece.stop]
    generalize (g :: others).map Glyph.char = chars at hne ⊢
    have hkept : chars.dropWhile Text.isBlank ≠ [] := by
      intro hnil
      apply hne
      rw [Text.trim, Text.trimStart, hnil]
      rfl
    have hpos := Text.byteLength_pos hkept
    have hsplit := Text.byteLength_append (chars.takeWhile Text.isBlank)
      (chars.dropWhile Text.isBlank)
    rw [List.takeWhile_append_dropWhile] at hsplit
    dsimp only
    omega

theorem position_le_of_mem {text : String} {l : Lexeme} (hl : l ∈ ofText text) :
    l.position ≤ text.utf8ByteSize := by
  obtain ⟨piece, hpiece, hlexeme⟩ := List.mem_filterMap.1 hl
  have horder := Piece.inOrder_join false (Glyph.within_read 0 text.toList)
  have hstop := horder.stop_le piece hpiece
  rw [Nat.zero_add, Text.byteLength_toList] at hstop
  exact Nat.le_trans (Nat.le_of_lt (bounds_of_lexeme? hlexeme).2) hstop

theorem exists_spelling_of_mem {text : String} {l : Lexeme} (hl : l ∈ ofText text) {s : Symbol}
    (hs : l.kind = .symbol s) :
    ∃ before after, text.toList = before ++ s.spelling ++ after ∧
      l.position = Text.byteLength before := by
  obtain ⟨piece, hpiece, hlexeme⟩ := List.mem_filterMap.1 hl
  rw [symbol_of_lexeme? hlexeme hs] at hpiece
  obtain ⟨front, row, back, hglyphs, hspells⟩ := Piece.exists_row_of_mem_join hpiece
  rw [List.append_assoc] at hglyphs
  obtain ⟨before, text', htext, hread⟩ := Glyph.exists_back_of_read_append hglyphs
  obtain ⟨after, rfl, hhead⟩ := Glyph.exists_row_of_read hread hspells.plain
  obtain ⟨g, hg, hposition⟩ := Option.map_eq_some_iff.1 hspells.head
  refine ⟨before, after, ?_, ?_⟩
  · rw [htext, hspells.chars, List.append_assoc]
  · rw [← hposition, hhead g hg, Nat.zero_add]

end Lexeme

/-! ## Faults -/

theorem error_of_map_eq_error {ε α β : Type} {x : Except ε α} {f : α → β} {e : ε}
    (h : x.map f = .error e) : x = .error e := by
  cases x with
  | error e' => exact congrArg Except.error (Except.error.inj h)
  | ok a => cases h

namespace Region

theorem position_of_place {position : Nat} {range : Except RangeError Range} {e : PatternError}
    (h : place position range = .error e) : e.position = position := by
  cases range with
  | error fault => cases h; rfl
  | ok range => cases h

theorem position_of_readOccurrences {items : List RegionItem} {position : Nat} {e : PatternError}
    (h : readOccurrences items position = .error e) : e.position = position := by
  unfold readOccurrences at h
  split at h
  · exact position_of_place h
  · cases h
    rfl

theorem position_of_readTiming {items : List RegionItem} {position : Nat} {e : PatternError}
    (h : readTiming items position = .error e) : e.position = position := by
  unfold readTiming at h
  split at h
  · split at h
    · exact position_of_place (error_of_map_eq_error h)
    · cases h
      rfl
  · cases h
    rfl

theorem position_of_token_error {r : Region} {e : PatternError} (h : r.token = .error e) :
    e.position = r.position := by
  unfold token at h
  split at h
  · exact position_of_readOccurrences (error_of_map_eq_error h)
  · exact position_of_readTiming (error_of_map_eq_error h)

theorem position_of_token {r : Region} {t : Token} (h : r.token = .ok t) :
    t.position = r.position := by
  unfold token at h
  split at h
  · obtain ⟨range, -, rfl⟩ := exists_of_map_eq_ok h
    rfl
  · obtain ⟨range, -, rfl⟩ := exists_of_map_eq_ok h
    rfl

theorem position_of_item {r : Region} {l : Lexeme} {e : PatternError} (h : r.item l = .error e) :
    e.position = l.position := by
  unfold item at h
  split at h
  · cases h
  · cases h
    rfl
  · split at h
    · cases h
    · cases h
      rfl

end Region

namespace Token

/-- Whatever comes out, tokens or a fault, is placed no later than `n`. -/
def PlacedBy (n : Nat) : Except PatternError (List Token) → Prop
  | .error e => e.position ≤ n
  | .ok tokens => ∀ t ∈ tokens, t.position ≤ n

variable {n : Nat}

theorem PlacedBy.append {result : Except PatternError (List Token)} (h : PlacedBy n result)
    {before : List Token} (hbefore : ∀ t ∈ before, t.position ≤ n) :
    PlacedBy n (result.map (before ++ ·)) := by
  cases result with
  | error e => exact h
  | ok tokens =>
    intro t ht
    exact (List.mem_append.1 ht).elim (hbefore t) (h t)

theorem PlacedBy.cons {result : Except PatternError (List Token)} (h : PlacedBy n result)
    {t : Token} (ht : t.position ≤ n) : PlacedBy n (result.map (t :: ·)) := by
  have hsingle : ∀ u ∈ [t], u.position ≤ n := by simpa using ht
  exact h.append hsingle

theorem placedBy_read {region : Option Region} {lexemes : List Lexeme}
    (hregion : ∀ r ∈ region, r.position ≤ n) (h : ∀ l ∈ lexemes, l.position ≤ n) :
    PlacedBy n (read region lexemes) := by
  fun_induction read region lexemes with
  | case1 => simp [PlacedBy]
  | case2 r => exact hregion r rfl
  | case3 l rest kind hkind ih =>
    exact (ih (by simp) fun m hm => h m (List.mem_cons_of_mem _ hm)).cons (h l List.mem_cons_self)
  | case4 l rest kind hkind ih =>
    refine ih ?_ fun m hm => h m (List.mem_cons_of_mem _ hm)
    rintro r ⟨⟩
    exact h l List.mem_cons_self
  | case5 l rest fault hfault => exact h l List.mem_cons_self
  | case6 r l rest hclose token htoken ih =>
    refine (ih (by simp) fun m hm => h m (List.mem_cons_of_mem _ hm)).cons ?_
    rw [Region.position_of_token htoken]
    exact hregion r rfl
  | case7 r l rest hclose e he =>
    rw [PlacedBy, Region.position_of_token_error he]
    exact hregion r rfl
  | case8 r l rest hopen item hitem ih =>
    refine ih ?_ fun m hm => h m (List.mem_cons_of_mem _ hm)
    rintro r' ⟨⟩
    exact hregion r rfl
  | case9 r l rest hopen e he =>
    rw [PlacedBy, Region.position_of_item he]
    exact h l List.mem_cons_self

theorem placedBy_drain {waiting : List Token} (h : ∀ t ∈ waiting, t.position ≤ n) :
    PlacedBy n (drain waiting) := by
  induction waiting with
  | nil => simp [drain, PlacedBy]
  | cons top rest ih =>
    unfold drain
    split
    · exact h top List.mem_cons_self
    · exact (ih fun t ht => h t (List.mem_cons_of_mem _ ht)).cons (h top List.mem_cons_self)

theorem position_le_of_release {precedence : Nat} {waiting before staying : List Token}
    (h : ∀ t ∈ waiting, t.position ≤ n)
    (hrelease : release precedence waiting = (before, staying)) :
    (∀ t ∈ before, t.position ≤ n) ∧ ∀ t ∈ staying, t.position ≤ n :=
  ⟨fun t ht => h t (mem_of_release hrelease t (.inl ht)),
    fun t ht => h t (mem_of_release hrelease t (.inr ht))⟩

theorem placedBy_order {waiting tokens : List Token} {afterOperand : Bool}
    (hwaiting : ∀ t ∈ waiting, t.position ≤ n) (h : ∀ t ∈ tokens, t.position ≤ n) :
    PlacedBy n (order waiting afterOperand tokens) := by
  have hrest {t : Token} {rest : List Token} (h : ∀ u ∈ t :: rest, u.position ≤ n) :
      ∀ u ∈ rest, u.position ≤ n := fun u hu => h u (List.mem_cons_of_mem _ hu)
  fun_induction order waiting afterOperand tokens with
  | case1 waiting afterOperand => exact placedBy_drain hwaiting
  | case2 waiting afterOperand t rest name hkind ih =>
    exact (ih hwaiting (hrest h)).cons (h t List.mem_cons_self)
  | case3 waiting afterOperand t rest hkind ih =>
    exact ih (List.forall_mem_cons.2 ⟨h t List.mem_cons_self, hwaiting⟩) (hrest h)
  | case4 waiting afterOperand t rest hkind group below hend ih =>
    have hmem := mem_of_endGroup? hend
    exact (ih (fun u hu => hwaiting u (hmem u (.inr hu))) (hrest h)).append
      fun u hu => hwaiting u (hmem u (.inl hu))
  | case5 waiting afterOperand t rest hkind hend => exact h t List.mem_cons_self
  | case6 waiting afterOperand t rest op hkind before staying hrelease ih =>
    obtain ⟨hbefore, hstaying⟩ := position_le_of_release hwaiting hrelease
    exact (ih (List.forall_mem_cons.2 ⟨h t List.mem_cons_self, hstaying⟩) (hrest h)).append hbefore
  | case7 waiting t rest range hkind before staying hrelease ih =>
    obtain ⟨hbefore, hstaying⟩ := position_le_of_release hwaiting hrelease
    exact (ih (List.forall_mem_cons.2 ⟨h t List.mem_cons_self, hstaying⟩) (hrest h)).append hbefore
  | case8 waiting afterOperand t rest range hkind hafter => exact h t List.mem_cons_self
  | case9 waiting t rest range hkind before staying hrelease ih =>
    obtain ⟨hbefore, hstaying⟩ := position_le_of_release hwaiting hrelease
    exact (ih (List.forall_mem_cons.2 ⟨h t List.mem_cons_self, hstaying⟩) (hrest h)).append hbefore
  | case10 waiting afterOperand t rest range hkind hafter => exact h t List.mem_cons_self

theorem placedBy_toPostfix {lexemes : List Lexeme} (h : ∀ l ∈ lexemes, l.position ≤ n) :
    PlacedBy n (ofLexemes lexemes >>= toPostfix) := by
  have hread := @placedBy_read n none lexemes (by simp) h
  unfold ofLexemes
  cases hresult : read none lexemes with
  | error e => rwa [hresult] at hread
  | ok tokens =>
    rw [hresult] at hread
    exact placedBy_order (by simp) hread

end Token

namespace Expression

variable {n : Nat}

theorem position_le_of_only {operands : List Operand}
    (h : ∀ operand ∈ operands, operand.position ≤ n) {e : PatternError}
    (he : only operands = .error e) : e.position ≤ n := by
  unfold only at he
  split at he
  · cases he
    exact Nat.zero_le n
  · cases he
  · rename_i first second others hreverse
    cases he
    refine h second (List.mem_reverse.1 ?_)
    rw [hreverse]
    simp

theorem position_le_of_build {registry : Registry} {operands : List Operand} {tokens : List Token}
    (hoperands : ∀ operand ∈ operands, operand.position ≤ n) (h : ∀ t ∈ tokens, t.position ≤ n)
    {e : PatternError} (he : (build registry operands tokens).1 = .error e) : e.position ≤ n := by
  have hrest {t : Token} {rest : List Token} (h : ∀ u ∈ t :: rest, u.position ≤ n) :
      ∀ u ∈ rest, u.position ≤ n := fun u hu => h u (List.mem_cons_of_mem _ hu)
  fun_induction build registry operands tokens with
  | case1 registry operands => exact position_le_of_only hoperands he
  | case2 registry operands t rest name hkind id grown hintern ih =>
    exact ih (List.forall_mem_cons.2 ⟨h t List.mem_cons_self, hoperands⟩) (hrest h) he
  | case3 registry t rest op right left below hkind joined ih =>
    rw [List.forall_mem_cons, List.forall_mem_cons] at hoperands
    exact ih (List.forall_mem_cons.2 hoperands.2) (hrest h) he
  | case5 registry t rest range top below hkind limited ih =>
    rw [List.forall_mem_cons] at hoperands
    exact ih (List.forall_mem_cons.2 hoperands) (hrest h) he
  | case7 registry t rest range top below hkind limited ih =>
    rw [List.forall_mem_cons] at hoperands
    exact ih (List.forall_mem_cons.2 hoperands) (hrest h) he
  | _ =>
    cases he
    exact h _ List.mem_cons_self

theorem position_le_of_ofLexemes {d : Defaults} {registry : Registry} {lexemes : List Lexeme}
    (h : ∀ l ∈ lexemes, l.position ≤ n) {e : PatternError}
    (he : (ofLexemes d registry lexemes).1 = .error e) : e.position ≤ n := by
  have hordered := Token.placedBy_toPostfix h
  unfold ofLexemes at he
  generalize Token.ofLexemes lexemes >>= Token.toPostfix = result at he hordered
  split at he
  · cases he
    exact hordered
  · cases he
    cases lexemes with
    | nil => exact Nat.zero_le n
    | cons l rest => exact h l List.mem_cons_self
  · rename_i ordered _
    exact position_le_of_build (by simp) hordered (error_of_map_eq_error he)

end Expression

end TimedPattern
