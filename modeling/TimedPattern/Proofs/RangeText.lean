import TimedPattern.Proofs.FloatZeros
import TimedPattern.Proofs.NameText
import TimedPattern.Proofs.RoundTrip

/-!
# Ranges as text

A minimum that is the negative zero starts with a minus, which is a flag inside a region. A maximum
never shows its sign, since the minimum is then a zero as well and one number is written for both.
-/

open List (Forall₂)

namespace TimedPattern

/-! ## Bounds without a sign -/

namespace Decimal

/-- The number itself, or zero instead of the negative zero. -/
def unsigned (x : Float) : Float := if negative x then 0 else x

variable {x : Float}

theorem negative_unsigned (x : Float) : negative (unsigned x) = false := by
  unfold unsigned
  split
  · rfl
  · rename_i h
    simpa using h

theorem unsigned_same (hx : 0 ≤ x) : SameNumber (unsigned x) x := by
  unfold unsigned
  split
  · rename_i h
    rw [eq_neg_zero hx h]
    exact .inr ⟨⟨_, datum_zero⟩, _, datum_neg_zero⟩
  · exact .refl x

theorem write_unsigned (hx : 0 ≤ x) : write .plain x =
    (if negative x then ['-'] else []) ++ write .plain (unsigned x) := by
  unfold unsigned
  split
  · rename_i h
    rw [eq_neg_zero hx h]
    decide +kernel
  · rfl

end Decimal

namespace Range

/-- The range with zero instead of the negative zero as a bound. -/
def unsigned (r : Range) : Range where
  minimum := Decimal.unsigned r.minimum
  maximum := Decimal.unsigned r.maximum
  zero_le_minimum :=
    ((SameNumber.refl 0).le_iff (Decimal.unsigned_same r.zero_le_minimum)).2 r.zero_le_minimum
  zero_le_maximum :=
    ((SameNumber.refl 0).le_iff (Decimal.unsigned_same r.zero_le_maximum)).2 r.zero_le_maximum
  ordered := ((Decimal.unsigned_same r.zero_le_minimum).le_iff
    (Decimal.unsigned_same r.zero_le_maximum)).2 r.ordered

theorem unsigned_unsigned (r : Range) : r.unsigned.Unsigned :=
  .of_not_negative (Decimal.negative_unsigned r.minimum) (Decimal.negative_unsigned r.maximum)

theorem unsigned_beq (r : Range) : (r.unsigned == r) = true := by
  have hmin := (Decimal.unsigned_same r.zero_le_minimum).beq_eq (.refl r.minimum)
  have hmax := (Decimal.unsigned_same r.zero_le_maximum).beq_eq (.refl r.maximum)
  show (Decimal.unsigned r.minimum == r.minimum && Decimal.unsigned r.maximum == r.maximum) = true
  rw [hmin, hmax, beq_self (isNaN_of_le r.zero_le_minimum).2,
    beq_self (isNaN_of_le r.zero_le_maximum).2]
  rfl

theorem isUnbounded_unsigned (r : Range) : r.unsigned.isUnbounded = r.isUnbounded :=
  (Decimal.unsigned_same r.zero_le_maximum).isInf_eq

theorem bounds_beq_unsigned (r : Range) :
    (r.unsigned.minimum == r.unsigned.maximum) = (r.minimum == r.maximum) :=
  (Decimal.unsigned_same r.zero_le_minimum).beq_eq (Decimal.unsigned_same r.zero_le_maximum)

theorem bounds_beq_of_negative {r : Range} (h : Decimal.negative r.maximum = true) :
    (r.minimum == r.maximum) = true := by
  have hzero := Decimal.unsigned_same r.zero_le_maximum
  rw [Decimal.unsigned, if_pos h] at hzero
  exact beq_of_le_of_le r.ordered ((hzero.le_iff (.refl r.minimum)).1 r.zero_le_minimum)

theorem write_unsigned (r : Range) : r.write =
    (if Decimal.negative r.minimum then ['-'] else []) ++ r.unsigned.write := by
  have hmin := Decimal.write_unsigned r.zero_le_minimum
  unfold write
  rw [isUnbounded_unsigned, bounds_beq_unsigned]
  split
  · rw [hmin, List.append_assoc]
    rfl
  · split
    · exact hmin
    · -- Two numbers are written only if they differ, and then the maximum has no sign.
      rename_i hne
      have hmax : r.unsigned.maximum = r.maximum :=
        if_neg fun hsign => hne (bounds_beq_of_negative hsign)
      rw [hmin, hmax, List.append_assoc]
      rfl

/-! ## The region -/

/-- What the text of a range holds: its items, behind a flag if the minimum has a sign. -/
def spelled (r : Range) : List RegionItem :=
  if Decimal.negative r.minimum then .flag '-' :: r.unsigned.items else r.unsigned.items

theorem spelled_legible (r : Range) : ∀ item ∈ r.spelled, item.Legible := by
  have hitems := items_legible r.unsigned_unsigned
  unfold spelled
  split
  · exact List.forall_mem_cons.2 ⟨trivial, hitems⟩
  · exact hitems

theorem flatMap_items (r : Range) : r.items.flatMap RegionItem.write = r.write := by
  unfold items write
  split
  · rfl
  · split
    · exact List.append_nil _
    · simp [RegionItem.write]

theorem text_spelled (r : Range) : RegionItem.text r.spelled = String.ofList r.write := by
  unfold RegionItem.text spelled
  rw [write_unsigned, ← flatMap_items]
  split
  · rfl
  · rfl

theorem kinds_spelled (r : Range) (rest : List Char) :
    Lexeme.kinds true [] (r.write ++ ']' :: rest) =
      r.spelled.map RegionItem.kind ++ .symbol .countClose :: Lexeme.kinds false [] rest := by
  have hclose : Lexeme.Marks true ']' .countClose false := ⟨rfl, rfl⟩
  have hminus : Lexeme.Marks true '-' (.flag '-') true := ⟨rfl, rfl⟩
  have hkinds := kinds_write r.unsigned_unsigned hclose rest
  unfold spelled
  rw [write_unsigned]
  split
  · rw [List.append_assoc, List.singleton_append, Lexeme.kinds_symbol hminus, hkinds]
    rfl
  · exact hkinds

theorem count?_minus (r : Range) :
    Region.count? (Region.withoutTimes (.flag '-' :: r.items)) = none := by
  unfold items
  split
  · rfl
  · split
    · rfl
    · rfl

theorem token_spelled (r : Range) (position : Nat) :
    Region.token ⟨.occurrences, position, r.spelled⟩ =
      if Decimal.negative r.minimum then .error ⟨.unknownOccurrences r.spelled, position⟩
      else .ok ⟨.occurrences r.unsigned, position⟩ := by
  by_cases hsign : Decimal.negative r.minimum = true
  · have hspelled : r.spelled = .flag '-' :: r.unsigned.items := if_pos hsign
    rw [if_pos hsign, hspelled]
    simp only [Region.token, Region.readOccurrences, count?_minus]
    rfl
  · have hspelled : r.spelled = r.unsigned.items := if_neg hsign
    rw [if_neg hsign, hspelled]
    simp only [Region.token, Region.readOccurrences, count?_items r.unsigned_unsigned]
    rfl

end Range

/-! ## Behind a behavior -/

theorem Lexeme.ofChars_append_region {before : List Char} (h : Glyph.Closed before)
    (rest : List Char) : ∃ region, ofChars (before ++ '[' :: rest) =
      ofChars before ++ ⟨.symbol .countOpen, Text.byteLength before⟩ :: region ∧
        region.map kind = kinds true [] rest := by
  have hbracket (inRegion : Bool) (position : Nat) (glyphs : List Glyph) :
      Piece.join inRegion (⟨'[', position, false⟩ :: glyphs) =
        .symbol .countOpen position :: Piece.join true glyphs :=
    join_symbol (by cases inRegion <;> rfl) glyphs
  have hread := h 0 ('[' :: rest)
  rw [read_cons (by decide), Nat.zero_add] at hread
  obtain ⟨inRegion, hjoin⟩ := Piece.exists_join_append false (Glyph.read 0 before)
    ⟨'[', Text.byteLength before, false⟩ (by decide : '[' ≠ '>')
    fun region => ⟨_, _, _, hbracket region _ _⟩
  rw [← hread, hbracket] at hjoin
  refine ⟨_, ?_, kind_lexemes true (Text.byteLength before + '['.utf8Size) rest⟩
  unfold ofChars
  rw [hjoin, List.filterMap_append]
  rfl

namespace Range

variable {before : List Char} {name : String} {place : Nat}

/-- A range in brackets behind a behavior comes back as an equal one, exactly if its minimum is not
the negative zero. -/
theorem read_written (hclosed : Glyph.Closed before)
    (hbefore : Lexeme.ofChars before = [⟨.text name, place⟩]) (r : Range) :
    (r.unsigned == r) = true ∧ RegionItem.text r.spelled = String.ofList r.write ∧
      Token.ofLexemes (Lexeme.ofChars (before ++ '[' :: r.write ++ [']'])) =
        if Decimal.negative r.minimum then
          .error ⟨.unknownOccurrences r.spelled, Text.byteLength before⟩
        else
          .ok [⟨.behavior name, place⟩, ⟨.occurrences r.unsigned, Text.byteLength before⟩] := by
  refine ⟨r.unsigned_beq, r.text_spelled, ?_⟩
  obtain ⟨region, hlexemes, hkinds⟩ := Lexeme.ofChars_append_region hclosed (r.write ++ [']'])
  rw [r.kinds_spelled []] at hkinds
  -- Behind the bracket come the items of the range and the bracket that closes the region.
  obtain ⟨inner, others, rfl, hinner, hothers⟩ := List.map_eq_append_iff.1 hkinds
  obtain ⟨close, others, rfl, hclose, hothers⟩ := List.map_eq_cons_iff.1 hothers
  obtain rfl := List.map_eq_nil_iff.1 hothers
  have hspelled := RegionItem.spelledBy_of_kinds r.spelled_legible hinner
  have hname : Token.Reads [⟨.text name, place⟩] [⟨.behavior name, place⟩] :=
    Token.reads_singleton rfl
  rw [List.append_assoc, List.cons_append, hlexemes, hbefore, Token.ofLexemes, hname,
    Token.read_region rfl hspelled (decide_eq_true hclose), r.token_spelled]
  split
  · rfl
  · rfl

/-- A range without end, behind a name that starts with a bracket and has a space behind it. -/
theorem read_written_open : ∃ r, between 0.5 Decimal.infinity = .ok r ∧
    Glyph.Closed "\\[A ".toList ∧ Lexeme.ofChars "\\[A ".toList = [⟨.text "[A", 1⟩] ∧
      r.write = "0.5:".toList ∧ Decimal.negative r.minimum = false ∧ ∃ back, (back == r) = true ∧
        Token.ofLexemes (Lexeme.ofChars ("\\[A ".toList ++ '[' :: r.write ++ [']'])) =
          .ok [⟨.behavior "[A", 1⟩, ⟨.occurrences back, 4⟩] := by
  have hplain : ∀ c ∈ ['A', ' '], c ≠ Symbol.escape := by simp [Symbol.escape]
  have hclosed : Glyph.Closed "\\[A ".toList :=
    Glyph.closed_escaped (Glyph.closed_of_forall hplain)
  have hbefore : Lexeme.ofChars "\\[A ".toList = [⟨.text "[A", 1⟩] := by decide +kernel
  obtain ⟨r, hr, hwrite, hsign⟩ : ∃ r, between 0.5 Decimal.infinity = .ok r ∧
      r.write = "0.5:".toList ∧ Decimal.negative r.minimum = false :=
    ⟨_, rfl, by decide +kernel, by decide +kernel⟩
  obtain ⟨hequal, -, hread⟩ := read_written hclosed hbefore r
  rw [hsign] at hread
  exact ⟨r, hr, hclosed, hbefore, hwrite, hsign, r.unsigned, hequal, hread⟩

/-- The negative zero is a minimum that ranges may have, and no count is read from its text. -/
theorem read_written_negative : ∃ r, between (-0) 1 = .ok r ∧ r.write = "-0:1".toList ∧
    Token.ofLexemes (Lexeme.ofChars ("A".toList ++ '[' :: r.write ++ [']'])) =
      .error ⟨.unknownOccurrences [.flag '-', .number 0, .flag ':', .number 1], 1⟩ :=
  ⟨_, rfl, by decide +kernel, rfl⟩

end Range

end TimedPattern
