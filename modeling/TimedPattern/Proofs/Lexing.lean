import TimedPattern.Lexeme
import TimedPattern.Proofs.Trim

/-!
# Lexing in one pass

What the lexemes of a text hold can be told in one pass that keeps the run since the last symbol, so
what a piece of text adds is an equation about this pass.
-/

namespace TimedPattern.Lexeme

/-! ## The pass -/

/-- The lexeme of a run, unless it is blank. -/
def flush (run : List Char) : List LexemeKind :=
  if Text.trim run = [] then [] else [.text (String.ofList (Text.trim run))]

/-- What the lexemes of a text hold, after a run that is still open. -/
def kinds (inRegion : Bool) (run : List Char) : List Char → List LexemeKind
  | [] => flush run
  | [c] =>
    if c = Symbol.escape then flush run
    else
      match Symbol.ofChar? inRegion c with
      | some s => flush run ++ [.symbol s]
      | none => flush (run ++ [c])
  | c :: d :: rest =>
    if c = Symbol.escape then kinds inRegion (run ++ [d]) rest
    else
      match Symbol.ofChar? inRegion c with
      | some s => flush run ++ .symbol s :: kinds (s.regionAfter inRegion) [] (d :: rest)
      | none =>
        match Symbol.ofPair? c d with
        | some s => flush run ++ .symbol s :: kinds inRegion [] rest
        | none => kinds inRegion (run ++ [c]) (d :: rest)

/-! ## The pass and the three moves -/

def kindsOf (pieces : List Piece) : List LexemeKind :=
  pieces.filterMap fun piece => piece.lexeme?.map kind

/-- What the lexemes of pieces hold, when an open run comes before them. -/
def kindsAfter (run : List Char) : List Piece → List LexemeKind
  | .run first others :: rest => flush (run ++ (first :: others).map Glyph.char) ++ kindsOf rest
  | pieces => flush run ++ kindsOf pieces

theorem kindsOf_run (first : Glyph) (others : List Glyph) (rest : List Piece) :
    kindsOf (.run first others :: rest) =
      flush ((first :: others).map Glyph.char) ++ kindsOf rest := by
  unfold kindsOf flush
  rw [List.filterMap_cons]
  simp only [Piece.lexeme?]
  split
  · rename_i h
    split at h
    · rename_i hblank
      rw [if_pos hblank, List.nil_append]
    · cases h
  · rename_i k h
    split at h
    · cases h
    · rename_i hne
      obtain rfl := Option.some.inj h
      rw [if_neg hne, List.singleton_append]

theorem kindsAfter_nil (pieces : List Piece) : kindsAfter [] pieces = kindsOf pieces := by
  unfold kindsAfter
  split
  · rw [kindsOf_run, List.nil_append]
  · rfl

theorem kindsAfter_cons (run : List Char) (g : Glyph) (pieces : List Piece) :
    kindsAfter run (Piece.cons g pieces) = kindsAfter (run ++ [g.char]) pieces := by
  cases pieces with
  | nil => simp [Piece.cons, kindsAfter, kindsOf]
  | cons piece rest =>
    cases piece with
    | run first others => simp [Piece.cons, kindsAfter]
    | symbol s position => simp [Piece.cons, kindsAfter]

theorem kindsAfter_symbol (run : List Char) (s : Symbol) (position : Nat) (pieces : List Piece) :
    kindsAfter run (.symbol s position :: pieces) =
      flush run ++ .symbol s :: kindsAfter [] pieces := by
  rw [kindsAfter_nil]
  rfl

theorem read_cons {c : Char} (hc : c ≠ Symbol.escape) (position : Nat) (rest : List Char) :
    Glyph.read position (c :: rest) =
      ⟨c, position, false⟩ :: Glyph.read (position + c.utf8Size) rest := by
  cases rest with
  | nil => simp [Glyph.read, hc]
  | cons d rest => simp [Glyph.read, hc]

theorem join_symbol {inRegion : Bool} {g : Glyph} {s : Symbol} (h : g.symbol? inRegion = some s)
    (glyphs : List Glyph) : Piece.join inRegion (g :: glyphs) =
      .symbol s g.position :: Piece.join (s.regionAfter inRegion) glyphs := by
  cases glyphs with
  | nil => simp [Piece.join, h]
  | cons other rest => simp [Piece.join, h]

theorem join_plain {inRegion : Bool} {g : Glyph} {glyphs : List Glyph}
    (h : g.symbol? inRegion = none) (hpair : ∀ other ∈ glyphs.head?, g.pair? other = none) :
    Piece.join inRegion (g :: glyphs) = Piece.cons g (Piece.join inRegion glyphs) := by
  cases glyphs with
  | nil => simp [Piece.join, h, Piece.cons]
  | cons other rest => simp [Piece.join, h, hpair other rfl]

theorem pair?_read {c d : Char} (h : Symbol.ofPair? c d = none) (position after : Nat)
    (rest : List Char) :
    ∀ other ∈ (Glyph.read after (d :: rest)).head?,
      Glyph.pair? ⟨c, position, false⟩ other = none := by
  intro other hother
  by_cases hd : d = Symbol.escape
  · cases rest with
    | nil => simp [Glyph.read, hd] at hother
    | cons e rest =>
      rw [Glyph.read, if_pos hd] at hother
      obtain rfl := Option.some.inj hother
      simp [Glyph.pair?]
  · rw [read_cons hd] at hother
    obtain rfl := Option.some.inj hother
    simpa [Glyph.pair?] using h

theorem ofPair?_eq_some {c d : Char} {s : Symbol} (h : Symbol.ofPair? c d = some s) : d = '>' := by
  unfold Symbol.ofPair? at h
  split at h
  · rfl
  · rfl
  · cases h

theorem kindsAfter_join (inRegion : Bool) (run text : List Char) (position : Nat) :
    kindsAfter run (Piece.join inRegion (Glyph.read position text)) = kinds inRegion run text := by
  fun_induction kinds inRegion run text generalizing position with
  | case1 inRegion run => exact List.append_nil _
  | case2 inRegion run =>
    rw [Glyph.read, if_pos rfl]
    exact List.append_nil _
  | case3 inRegion run c hc s hs =>
    rw [read_cons hc, join_symbol (by simpa [Glyph.symbol?] using hs), kindsAfter_symbol]
    rfl
  | case4 inRegion run c hc hnone =>
    rw [read_cons hc, join_plain (by simpa [Glyph.symbol?] using hnone) (by simp [Glyph.read]),
      kindsAfter_cons]
    exact List.append_nil _
  | case5 inRegion run d rest ih =>
    rw [Glyph.read, if_pos rfl, join_plain (by simp [Glyph.symbol?]) (by simp [Glyph.pair?]),
      kindsAfter_cons, ih]
  | case6 inRegion run c d rest hc s hs ih =>
    rw [read_cons hc, join_symbol (by simpa [Glyph.symbol?] using hs), kindsAfter_symbol, ih]
  | case7 inRegion run c d rest hc hnone s hs ih =>
    -- The two characters belong together, so the second one is no escape.
    have hd : d ≠ Symbol.escape := by rw [ofPair?_eq_some hs]; decide
    rw [read_cons hc, read_cons hd]
    have hpair : Glyph.pair? ⟨c, position, false⟩ ⟨d, position + c.utf8Size, false⟩ = some s := by
      simpa [Glyph.pair?] using hs
    have hsymbol : Glyph.symbol? inRegion ⟨c, position, false⟩ = none := by
      simpa [Glyph.symbol?] using hnone
    simp only [Piece.join, hsymbol, hpair]
    rw [kindsAfter_symbol, ih]
  | case8 inRegion run c d rest hc hnone hpair ih =>
    rw [read_cons hc, join_plain (by simpa [Glyph.symbol?] using hnone)
      (pair?_read hpair position _ rest), kindsAfter_cons, ih]

theorem kind_lexemes (inRegion : Bool) (position : Nat) (text : List Char) :
    ((Piece.join inRegion (Glyph.read position text)).filterMap Piece.lexeme?).map kind =
      kinds inRegion [] text := by
  rw [← kindsAfter_join inRegion [] text position, kindsAfter_nil]
  unfold kindsOf
  rw [List.map_filterMap]

theorem kind_ofChars (text : List Char) : (ofChars text).map kind = kinds false [] text :=
  kind_lexemes false 0 text

/-! ## What one character adds -/

variable {inRegion : Bool} {run rest : List Char} {c d : Char} {s : Symbol}

theorem kinds_escaped : kinds inRegion run (Symbol.escape :: d :: rest) =
    kinds inRegion (run ++ [d]) rest := by
  rw [kinds, if_pos rfl]

theorem ne_escape_of_ofChar? (hs : Symbol.ofChar? inRegion c = some s) : c ≠ Symbol.escape := by
  rintro rfl
  cases inRegion <;> cases hs

theorem ne_escape_of_ofPair? (hs : Symbol.ofPair? c d = some s) : c ≠ Symbol.escape := by
  rintro rfl
  cases hs

/-- A character is a symbol by itself, and leaves a region open behind it or not. -/
structure Marks (inRegion : Bool) (c : Char) (s : Symbol) (after : Bool) : Prop where
  symbol : Symbol.ofChar? inRegion c = some s
  region : s.regionAfter inRegion = after

theorem kinds_symbol {after : Bool} (h : Marks inRegion c s after) :
    kinds inRegion run (c :: rest) = flush run ++ .symbol s :: kinds after [] rest := by
  obtain ⟨hs, rfl⟩ := h
  have hc := ne_escape_of_ofChar? hs
  cases rest with
  | nil => simp [kinds, hc, hs, flush, Text.trim_of_blank]
  | cons d rest =>
    rw [kinds, if_neg hc]
    simp only [hs]

theorem kinds_pair (hnone : Symbol.ofChar? inRegion c = none)
    (hs : Symbol.ofPair? c d = some s) : kinds inRegion run (c :: d :: rest) =
      flush run ++ .symbol s :: kinds inRegion [] rest := by
  rw [kinds, if_neg (ne_escape_of_ofPair? hs)]
  simp only [hnone, hs]

theorem kinds_plain (hc : c ≠ Symbol.escape) (hnone : Symbol.ofChar? inRegion c = none)
    (hpair : ∀ d ∈ rest.head?, Symbol.ofPair? c d = none) :
    kinds inRegion run (c :: rest) = kinds inRegion (run ++ [c]) rest := by
  cases rest with
  | nil => simp [kinds, hc, hnone]
  | cons d rest =>
    rw [kinds, if_neg hc]
    simp only [hnone, hpair d rfl]

theorem ofPair?_eq_none (h : c ∉ ['-', '=']) (d : Char) : Symbol.ofPair? c d = none := by
  unfold Symbol.ofPair?
  split
  · exact absurd (by simp) h
  · exact absurd (by simp) h
  · rfl

/-- Never a part of a symbol, not even inside a region. -/
def Plain (c : Char) : Prop :=
  c ≠ Symbol.escape ∧ Symbol.ofChar? true c = none ∧ c ∉ ['-', '=']

instance : DecidablePred Plain := fun _ => inferInstanceAs (Decidable (_ ∧ _ ∧ _))

theorem kinds_run {text : List Char} (h : ∀ c ∈ text, Plain c) :
    kinds true run (text ++ rest) = kinds true (run ++ text) rest := by
  induction text generalizing run with
  | nil => rw [List.append_nil, List.nil_append]
  | cons c text ih =>
    obtain ⟨hescape, hchar, hpair⟩ := h c (List.mem_cons_self ..)
    rw [List.cons_append, kinds_plain hescape hchar fun d _ => ofPair?_eq_none hpair d,
      ih fun d hd => h d (List.mem_cons_of_mem _ hd), List.append_assoc, List.singleton_append]

/-! ## Where a run ends -/

theorem flush_of_blank (h : ∀ c ∈ run, Text.isBlank c = true) : flush run = [] := by
  unfold flush
  rw [Text.trim_of_blank h, if_pos rfl]

theorem flush_append_blank (run : List Char) {after : List Char}
    (h : ∀ c ∈ after, Text.isBlank c = true) : flush (run ++ after) = flush run := by
  unfold flush
  rw [Text.trim_append_blank run h]

theorem flush_trimmed {text : List Char} (hrun : ∀ c ∈ run, Text.isBlank c = true)
    (htext : Text.Trimmed text) : flush (run ++ text) = [.text (String.ofList text)] := by
  have htrim := @Text.trim_append run text [] htext hrun (by simp)
  rw [List.append_nil] at htrim
  unfold flush
  rw [htrim, if_neg htext.ne_nil]

/-- A text outside regions that ends the run in front of it. -/
structure Stops (rest : List Char) : Prop where
  head : rest.head? ≠ some '>'
  kinds : ∀ run, kinds false run rest = flush run ++ Lexeme.kinds false [] rest

theorem stops_symbol {after : Bool} (h : Marks false c s after) (rest : List Char) :
    Stops (c :: rest) := by
  refine ⟨?_, fun run => ?_⟩
  · rintro ⟨⟩
    cases h.symbol
  · rw [kinds_symbol h, kinds_symbol h]
    rfl

theorem stops_pair (hnone : Symbol.ofChar? false c = none)
    (hs : Symbol.ofPair? c d = some s) (rest : List Char) : Stops (c :: d :: rest) := by
  refine ⟨?_, fun run => ?_⟩
  · rintro ⟨⟩
    cases hs
  · rw [kinds_pair hnone hs, kinds_pair hnone hs]
    rfl

theorem isBlank_space : ∀ c ∈ [' '], Text.isBlank c = true :=
  List.forall_mem_singleton.2 rfl

theorem kinds_blank (rest : List Char) (run : List Char) :
    kinds false run (' ' :: rest) = kinds false (run ++ [' ']) rest :=
  kinds_plain (by decide) (by decide) fun _ _ => rfl

theorem stops_blank (h : Stops rest) : Stops (' ' :: rest) := by
  refine ⟨by simp, fun run => ?_⟩
  rw [kinds_blank, kinds_blank, h.kinds, h.kinds ([] ++ [' ']),
    flush_append_blank run isBlank_space, List.nil_append, flush_of_blank isBlank_space,
    List.nil_append]

end TimedPattern.Lexeme
