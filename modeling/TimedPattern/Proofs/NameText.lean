import TimedPattern.Proofs.Rendering

/-!
# Names of patterns as text

The text that is written for a name keeps all of it apart from the white space at its ends.
-/

namespace TimedPattern

/-! ## Bytes -/

namespace Text

theorem byteLength_append (before after : List Char) :
    byteLength (before ++ after) = byteLength before + byteLength after := by
  induction before with
  | nil => simp [byteLength]
  | cons c before ih =>
    simp only [List.cons_append, byteLength, ih]
    omega

theorem dropBytes_append (before after : List Char) :
    dropBytes (byteLength before) (before ++ after) = after := by
  induction before with
  | nil => cases after <;> rfl
  | cons c before ih =>
    have hpos := c.utf8Size_pos
    rw [List.cons_append, dropBytes, byteLength, if_neg (by omega), Nat.add_sub_cancel_left]
    exact ih

theorem exists_trim_between (text : List Char) :
    ∃ before after, text = before ++ trim text ++ after ∧
      (∀ c ∈ before, isBlank c = true) ∧ ∀ c ∈ after, isBlank c = true := by
  refine ⟨text.takeWhile isBlank, ((trimStart text).reverse.takeWhile isBlank).reverse, ?_, ?_, ?_⟩
  · rw [List.append_assoc]
    unfold trim
    rw [trimEnd_append_dropped]
    exact (List.takeWhile_append_dropWhile).symm
  · intro c hc
    exact List.mem_takeWhile_imp hc
  · intro c hc
    rw [List.mem_reverse] at hc
    exact List.mem_takeWhile_imp hc

theorem trim_eq_self_iff (text : List Char) :
    trim text = text ↔
      ∀ c, text.head? = some c ∨ text.getLast? = some c → isBlank c = false := by
  constructor
  · intro h c hc
    by_cases hne : trim text = []
    · rw [← h, hne] at hc
      simp at hc
    · have htrimmed := trimmed_trim hne
      rw [h] at htrimmed
      rcases hc with hc | hc
      · exact htrimmed.head c hc
      · exact htrimmed.last c hc
  · intro h
    by_cases hne : text = []
    · rw [hne]
      rfl
    · have htrimmed : Trimmed text := ⟨hne, fun c hc => h c (.inl hc), fun c hc => h c (.inr hc)⟩
      simpa using @trim_append [] text [] htrimmed (by simp) (by simp)

end Text

/-! ## Text that ends no escape early -/

/-- The text is read the same in front of any other text: no escape at its end takes in what comes
next. -/
def Glyph.Closed (text : List Char) : Prop :=
  ∀ position rest, Glyph.read position (text ++ rest) =
    Glyph.read position text ++ Glyph.read (position + Text.byteLength text) rest

namespace Glyph

variable {text : List Char} {c : Char}

theorem closed_nil : Closed [] := by
  intro position rest
  rfl

theorem Closed.append {after : List Char} (h : Closed text) (hafter : Closed after) :
    Closed (text ++ after) := by
  intro position rest
  rw [List.append_assoc, h, hafter, h position after, List.append_assoc, Text.byteLength_append,
    Nat.add_assoc]

theorem closed_cons (hc : c ≠ Symbol.escape) (h : Closed text) : Closed (c :: text) := by
  intro position rest
  rw [List.cons_append, Lexeme.read_cons hc, Lexeme.read_cons hc, h, Text.byteLength,
    Nat.add_assoc]
  rfl

theorem closed_escaped (h : Closed text) : Closed (Symbol.escape :: c :: text) := by
  intro position rest
  simp only [List.cons_append, read, if_true, Text.byteLength, ← Nat.add_assoc]
  rw [h]

theorem closed_of_forall (h : ∀ c ∈ text, c ≠ Symbol.escape) : Closed text := by
  induction text with
  | nil => exact closed_nil
  | cons c text ih =>
    exact closed_cons (h c List.mem_cons_self) (ih fun d hd => h d (List.mem_cons_of_mem _ hd))

end Glyph

theorem closed_writeName (name : List Char) : Glyph.Closed (writeName name) := by
  induction name with
  | nil => exact Glyph.closed_nil
  | cons c name ih =>
    unfold writeName
    split
    · exact Glyph.closed_escaped ih
    · rename_i hplain
      refine Glyph.closed_cons ?_ ih
      rintro rfl
      exact hplain rfl

theorem Decimal.ne_escape_of_mem_write {x : Float} (hx : 0 ≤ x) :
    ∀ c ∈ Decimal.write .plain x, c ≠ Symbol.escape := by
  intro c hc
  by_cases hsign : Decimal.negative x = true
  · obtain rfl := eq_neg_zero hx hsign
    have hwrite : Decimal.write .plain (-0) = ['-', '0'] := by decide +kernel
    rw [hwrite] at hc
    rintro rfl
    exact absurd hc (by decide)
  · have hwritten := Decimal.written_write (isNaN_of_le hx).2 (by simpa using hsign)
    exact (Decimal.numeric_plain c (hwritten.mem_numeric c hc)).1.1

theorem Range.closed_write (r : Range) : Glyph.Closed r.write := by
  have hmin := Glyph.closed_of_forall (Decimal.ne_escape_of_mem_write r.zero_le_minimum)
  have hmax := Glyph.closed_of_forall (Decimal.ne_escape_of_mem_write r.zero_le_maximum)
  unfold write
  split
  · exact hmin.append (Glyph.closed_cons (by decide) Glyph.closed_nil)
  · split
    · exact hmin
    · exact hmin.append (Glyph.closed_cons (by decide) hmax)

theorem Limit.closed_write (l : Limit) : Glyph.Closed l.write := by
  cases l with
  | occurrences range =>
    refine Glyph.closed_cons (by decide) (range.closed_write.append ?_)
    exact Glyph.closed_cons (by decide) Glyph.closed_nil
  | timing range =>
    refine Glyph.closed_cons (by decide) (Glyph.closed_cons (by decide) ?_)
    exact range.closed_write.append (Glyph.closed_cons (by decide) Glyph.closed_nil)

theorem Tally.closed_write (t : Tally) : Glyph.Closed t.write := by
  rw [write_eq]
  generalize t.limits = limits
  induction limits with
  | nil => exact Glyph.closed_nil
  | cons l limits ih =>
    rw [List.flatMap_cons]
    exact l.closed_write.append ih

theorem Operator.closed_text (op : Operator) : Glyph.Closed op.text.toList := by
  cases op with
  | and => exact Glyph.closed_cons (by decide) Glyph.closed_nil
  | or => exact Glyph.closed_cons (by decide) Glyph.closed_nil

theorem Expression.closed_write (e : Expression) : Glyph.Closed e.write := by
  induction e with
  | leaf behavior name t => exact (closed_writeName _).append t.closed_write
  | conditional op left right t ihl ihr =>
    have hright := Glyph.closed_cons (c := ' ') (by decide)
      (ihr.append (Glyph.closed_cons (c := ')') (by decide) t.closed_write))
    have hop := Glyph.closed_cons (c := ' ') (by decide) (op.closed_text.append hright)
    have hall := Glyph.closed_cons (c := '(') (by decide) (ihl.append hop)
    unfold write
    simpa using hall

theorem Pattern.closed_writeSteps (steps : List Expression) :
    Glyph.Closed (writeSteps steps) := by
  fun_induction writeSteps steps with
  | case1 => exact Glyph.closed_nil
  | case2 step => exact step.closed_write
  | case3 step rest hne ih =>
    have harrow : Glyph.Closed [' ', '-', '>', ' '] :=
      Glyph.closed_of_forall (by simp [Symbol.escape])
    exact (step.closed_write.append harrow).append ih

/-! ## The arrow in front of the name -/

namespace Piece

theorem cons_append_symbol (g : Glyph) (before : List Piece) (s : Symbol) (position : Nat)
    (rest : List Piece) : cons g (before ++ symbol s position :: rest) =
      cons g before ++ symbol s position :: rest := by
  cases before with
  | nil => rfl
  | cons piece before => cases piece <;> rfl

theorem pair?_eq_none {h : Glyph} (hne : h.char ≠ '>') (g : Glyph) : g.pair? h = none := by
  cases hpair : g.pair? h with
  | none => rfl
  | some s =>
    unfold Glyph.pair? at hpair
    split at hpair
    · cases hpair
    · exact absurd (Lexeme.ofPair?_eq_some hpair) hne

theorem exists_join_append (inRegion : Bool) (glyphs : List Glyph) (next : Glyph)
    {rest : List Glyph} (hnext : next.char ≠ '>') (hsymbol : ∀ region, ∃ s position others,
      join region (next :: rest) = symbol s position :: others) :
    ∃ region, join inRegion (glyphs ++ next :: rest) =
      join inRegion glyphs ++ join region (next :: rest) := by
  fun_induction join inRegion glyphs with
  | case1 inRegion => exact ⟨inRegion, rfl⟩
  | case2 inRegion g s hs =>
    refine ⟨s.regionAfter inRegion, ?_⟩
    rw [List.singleton_append, Lexeme.join_symbol hs]
    rfl
  | case3 inRegion g hs =>
    obtain ⟨s, position, others, hjoin⟩ := hsymbol inRegion
    refine ⟨inRegion, ?_⟩
    rw [List.singleton_append, Lexeme.join_plain hs (by simpa using pair?_eq_none hnext g), hjoin]
    rfl
  | case4 inRegion g h others s hs ih =>
    obtain ⟨region, hregion⟩ := ih
    refine ⟨region, ?_⟩
    rw [List.cons_append, Lexeme.join_symbol hs, hregion]
    rfl
  | case5 inRegion g h others hs s hpair ih =>
    obtain ⟨region, hregion⟩ := ih
    refine ⟨region, ?_⟩
    simp only [List.cons_append, join, hs, hpair, hregion]
  | case6 inRegion g h others hs hpair ih =>
    obtain ⟨region, hregion⟩ := ih
    -- The glyph joins the run in front of the symbol, which ends there.
    obtain ⟨s, position, pieces, hjoin⟩ := hsymbol region
    refine ⟨region, ?_⟩
    rw [List.cons_append, Lexeme.join_plain hs (by simpa using hpair), hregion, hjoin,
      cons_append_symbol]

theorem join_result (inRegion : Bool) (position after : Nat) (rest : List Glyph) :
    join inRegion (⟨'=', position, false⟩ :: ⟨'>', after, false⟩ :: rest) =
      symbol .result position :: join inRegion rest := by
  cases inRegion <;> rfl

end Piece

/-! ## The text of a name -/

namespace Pattern

variable {name after : List Char}

theorem writeResult_append (h : after.head? ≠ some '>') :
    writeResult (name ++ after) = writeResult name ++ writeResult after := by
  induction name with
  | nil => rfl
  | cons c name ih =>
    have hhead : (name ++ after).head? = some '>' ↔ name.head? = some '>' := by
      cases name with
      | nil => simpa using h
      | cons d name => exact Iff.rfl
    rw [List.cons_append, writeResult, writeResult]
    simp only [hhead, ih]
    split <;> rfl

theorem writeResult_blank_append {before : List Char} (h : ∀ c ∈ before, Text.isBlank c = true)
    (name : List Char) : writeResult (before ++ name) = before ++ writeResult name := by
  induction before with
  | nil => rfl
  | cons c before ih =>
    have hc := h c List.mem_cons_self
    rw [List.cons_append, writeResult, if_neg, ih fun d hd => h d (List.mem_cons_of_mem _ hd)]
    · rfl
    · rintro (rfl | ⟨rfl, -⟩)
      · exact absurd hc (by decide)
      · exact absurd hc (by decide)

theorem writeResult_of_blank (h : ∀ c ∈ name, Text.isBlank c = true) : writeResult name = name := by
  have hname := writeResult_blank_append h []
  rwa [List.append_nil, show writeResult [] = [] from rfl, List.append_nil] at hname

theorem getLast?_writeResult (name : List Char) : (writeResult name).getLast? = name.getLast? := by
  induction name with
  | nil => rfl
  | cons c name ih =>
    have hlast (d : Char) : (d :: writeResult name).getLast? = (d :: name).getLast? := by
      rw [List.getLast?_cons, List.getLast?_cons, ih]
    unfold writeResult
    split
    · rw [List.getLast?_cons_cons, hlast]
    · exact hlast c

theorem writeResult_trimmed (h : Text.Trimmed name) : Text.Trimmed (writeResult name) := by
  cases name with
  | nil => exact absurd rfl h.ne_nil
  | cons c name =>
    have hlast := h.last
    rw [← getLast?_writeResult] at hlast
    refine ⟨?_, fun d hd => ?_, hlast⟩
    · unfold writeResult
      split <;> simp
    · unfold writeResult at hd
      split at hd
      · obtain rfl := Option.some.inj hd
        decide
      · exact h.head d hd

theorem trim_writeResult (name : List Char) :
    Text.trim (writeResult name) = writeResult (Text.trim name) := by
  obtain ⟨before, after, hname, hbefore, hafter⟩ := Text.exists_trim_between name
  by_cases hne : Text.trim name = []
  · have hblank : ∀ c ∈ name, Text.isBlank c = true := by
      intro c hc
      rw [hname, hne, List.append_nil, List.mem_append] at hc
      rcases hc with hc | hc
      · exact hbefore c hc
      · exact hafter c hc
    rw [writeResult_of_blank hblank, hne]
    rfl
  · have hhead : after.head? ≠ some '>' := by
      intro hhead
      exact absurd (hafter '>' (List.mem_of_head? hhead)) (by decide)
    have hwrite : writeResult name = before ++ writeResult (Text.trim name) ++ after := by
      conv => lhs; rw [hname]
      rw [List.append_assoc, writeResult_blank_append hbefore, writeResult_append hhead,
        writeResult_of_blank hafter, List.append_assoc]
    rw [hwrite]
    exact Text.trim_append (writeResult_trimmed (Text.trimmed_trim hne)) hbefore hafter

theorem chars_read_writeResult (position : Nat) (name : List Char) :
    (Glyph.read position (writeResult name)).map Glyph.char = name := by
  induction name generalizing position with
  | nil => rfl
  | cons c name ih =>
    unfold writeResult
    split
    · rw [Glyph.read, if_pos rfl, List.map_cons, ih]
    · rename_i hplain
      rw [Lexeme.read_cons fun hc => hplain (.inl hc), List.map_cons, ih]

/-! ## Patterns -/

/-- What stands in front of `=>` in the text of a pattern. -/
def writeBody (p : Pattern) : List Char := writeSteps p.steps ++ [' ']

theorem write_eq (p : Pattern) :
    p.write = p.writeBody ++ ['=', '>'] ++ writeResult (' ' :: p.name.toList) := by
  have hname := writeResult_blank_append Lexeme.isBlank_space p.name.toList
  rw [List.singleton_append] at hname
  rw [hname]
  unfold write writeBody
  simp

theorem mem_ofText_text (p : Pattern) :
    ⟨.symbol .result, Text.byteLength p.writeBody⟩ ∈ Lexeme.ofText p.text := by
  have hclosed : Glyph.Closed p.writeBody :=
    (closed_writeSteps p.steps).append (Glyph.closed_cons (by decide) Glyph.closed_nil)
  have hread := hclosed 0 ('=' :: '>' :: writeResult (' ' :: p.name.toList))
  rw [Lexeme.read_cons (by decide), Lexeme.read_cons (by decide), Nat.zero_add] at hread
  obtain ⟨region, hjoin⟩ := Piece.exists_join_append false (Glyph.read 0 p.writeBody)
    ⟨'=', Text.byteLength p.writeBody, false⟩ (by decide : '=' ≠ '>')
    fun region => ⟨_, _, _, Piece.join_result region _ _ _⟩
  rw [← hread, Piece.join_result] at hjoin
  unfold Lexeme.ofText Lexeme.ofChars text
  rw [String.toList_ofList, write_eq, List.append_assoc, List.cons_append, List.singleton_append,
    hjoin]
  refine List.mem_filterMap.2 ⟨.symbol .result (Text.byteLength p.writeBody), ?_, rfl⟩
  exact List.mem_append_right _ List.mem_cons_self

theorem nameAfter_text (p : Pattern) :
    nameAfter ⟨.symbol .result, Text.byteLength p.writeBody⟩ p.text.toList =
      String.ofList (Text.trim p.name.toList) := by
  have harrow : Text.byteLength (p.writeBody ++ ['=', '>']) =
      Text.byteLength p.writeBody + Symbol.result.spelling.length := Text.byteLength_append ..
  unfold nameAfter
  rw [text, String.toList_ofList, write_eq, ← harrow, Text.dropBytes_append]
  dsimp only
  rw [trim_writeResult, chars_read_writeResult]
  rfl

theorem exists_nameAfter {d : Defaults} {registry : Registry} {text : String} {p : Pattern}
    (h : (parse d registry text).1 = .ok p) :
    ∃ result, (Lexeme.ofText text).filter (·.isSymbol .result) = [result] ∧
      p.name = nameAfter result text.toList := by
  unfold parse at h
  dsimp only at h
  split at h
  · cases h
  · rename_i result hresult
    obtain ⟨steps, -, rfl⟩ := exists_of_map_eq_ok h
    exact ⟨result, hresult, rfl⟩
  · cases h

/-- The name of a pattern, as it comes back from the text of the pattern, has lost the white space
at its ends and nothing else. So it comes back as it was exactly if there is none. -/
theorem name_parse_text {d : Defaults} {registry : Registry} {p q : Pattern}
    (h : (parse d registry p.text).1 = .ok q) :
    q.name = String.ofList (Text.trim p.name.toList) ∧
      (q.name = p.name ↔ ∀ c, p.name.toList.head? = some c ∨ p.name.toList.getLast? = some c →
        Text.isBlank c = false) := by
  obtain ⟨result, honly, hname⟩ := exists_nameAfter h
  have hresult : ⟨.symbol .result, Text.byteLength p.writeBody⟩ = result := by
    refine List.mem_singleton.1 ?_
    rw [← honly]
    exact List.mem_filter.2 ⟨p.mem_ofText_text, rfl⟩
  rw [← hresult, nameAfter_text] at hname
  refine ⟨hname, ?_⟩
  rw [hname, ← Text.trim_eq_self_iff]
  constructor
  · intro hsame
    have hchars := congrArg String.toList hsame
    rwa [String.toList_ofList] at hchars
  · intro hsame
    rw [hsame, String.ofList_toList]

/-- A name with an arrow and a backslash comes back as it was. -/
theorem name_parse_text_kept : ∃ (p q : Pattern) (r : Registry),
    parse {} .empty "A => x \\=> y\\\\z" = (.ok p, r) ∧ p.name = "x => y\\z" ∧
      p.text = "A\x7bs0:1\x7d[1] => x \\=> y\\\\z" ∧ parse {} r p.text = (.ok q, r) ∧
        q.name = p.name := by
  obtain ⟨p, q, r, hp, hname, htext, hq⟩ : ∃ (p q : Pattern) (r : Registry),
      parse {} .empty "A => x \\=> y\\\\z" = (.ok p, r) ∧ p.name = "x => y\\z" ∧
        p.text = "A\x7bs0:1\x7d[1] => x \\=> y\\\\z" ∧
          parse {} r "A\x7bs0:1\x7d[1] => x \\=> y\\\\z" = (.ok q, r) :=
    ⟨_, _, _, rfl, by decide +kernel, by decide +kernel, rfl⟩
  rw [← htext] at hq
  have hok : (parse {} r p.text).1 = .ok q := by rw [hq]
  refine ⟨p, q, r, hp, hname, htext, hq, (name_parse_text hok).2.2 ?_⟩
  rw [hname]
  rintro c (hc | hc)
  · obtain rfl := Option.some.inj hc
    decide
  · obtain rfl := Option.some.inj hc
    decide

/-- An escaped space in front of the name is a part of it, and is written without its escape. -/
theorem name_parse_text_lost : ∃ (p q : Pattern) (r : Registry),
    parse {} .empty "A => \\ P" = (.ok p, r) ∧ p.name = " P" ∧
      p.text = "A\x7bs0:1\x7d[1] =>  P" ∧ parse {} r p.text = (.ok q, r) ∧ q.name = "P" := by
  obtain ⟨p, q, r, hp, hname, htext, hq, hlost⟩ : ∃ (p q : Pattern) (r : Registry),
      parse {} .empty "A => \\ P" = (.ok p, r) ∧ p.name = " P" ∧
        p.text = "A\x7bs0:1\x7d[1] =>  P" ∧
          parse {} r "A\x7bs0:1\x7d[1] =>  P" = (.ok q, r) ∧ q.name = "P" :=
    ⟨_, _, _, rfl, by decide +kernel, by decide +kernel, rfl, by decide +kernel⟩
  rw [← htext] at hq
  exact ⟨p, q, r, hp, hname, htext, hq, hlost⟩

end Pattern

end TimedPattern
