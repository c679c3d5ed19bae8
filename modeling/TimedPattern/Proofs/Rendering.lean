import TimedPattern.Pattern
import TimedPattern.Proofs.Compiled
import TimedPattern.Proofs.Grammar.Spec
import TimedPattern.Proofs.Lexing
import TimedPattern.Proofs.Numerals

/-! # Lexing what was written -/

namespace TimedPattern

/-! ## Numbers -/

namespace Decimal

/-- The characters of numbers that have no sign. -/
def numeric : List Char :=
  ['0', '1', '2', '3', '4', '5', '6', '7', '8', '9', '.', 'i', 'n', 'f']

theorem mem_numeric_of_isDigit {c : Char} (h : c.isDigit = true) : c ∈ numeric := by
  have hdigits : ∀ k < 10, Char.ofNat (48 + k) ∈ numeric := by decide
  obtain ⟨hlow, hhigh⟩ := Char.isDigit_iff_toNat.1 h
  change 48 ≤ c.toNat at hlow
  change c.toNat ≤ 57 at hhigh
  have hc := hdigits (c.toNat - 48) (by omega)
  rwa [Nat.add_sub_cancel' hlow, Char.ofNat_toNat] at hc

theorem numeric_plain : ∀ c ∈ numeric, Lexeme.Plain c ∧ Text.isBlank c = false := by
  have hall : numeric.all (fun c => decide (Lexeme.Plain c ∧ Text.isBlank c = false)) = true := by
    decide
  exact fun c hc => of_decide_eq_true (List.all_eq_true.1 hall c hc)

theorem Written.mem_numeric {x : Float} {text : List Char} (h : Written x text) :
    ∀ c ∈ text, c ∈ numeric := by
  intro c hc
  cases h with
  | word h =>
    simp only [List.mem_cons, List.not_mem_nil, or_false] at hc
    rcases hc with rfl | rfl | rfl <;> decide
  | numeral hspells hvalue =>
    rcases hspells.chars c hc with hdigit | rfl
    · exact mem_numeric_of_isDigit hdigit
    · decide

theorem Written.trimmed {x : Float} {text : List Char} (h : Written x text) :
    Text.Trimmed text := by
  refine .of_forall ?_ fun c hc => (numeric_plain c (h.mem_numeric c hc)).2
  cases h with
  | word h => simp
  | numeral hspells hvalue =>
    obtain ⟨c, rest, rfl, -⟩ := hspells.head
    simp

theorem not_negative {x : Float} (hle : 0 ≤ x) (hne : x ≠ -0) : negative x = false := by
  rw [Bool.eq_false_iff]
  exact fun hsign => hne (eq_neg_zero hle hsign)

theorem kinds_number {x : Float} (hx : Written x (write .plain x)) {c : Char} {s : Symbol}
    {after : Bool} (h : Lexeme.Marks true c s after) (rest : List Char) :
    Lexeme.kinds true [] (write .plain x ++ c :: rest) =
      .text (text x) :: .symbol s :: Lexeme.kinds after [] rest := by
  rw [Lexeme.kinds_run fun c hc => (numeric_plain c (hx.mem_numeric c hc)).1,
    Lexeme.kinds_symbol h, Lexeme.flush_trimmed (by simp) hx.trimmed]
  rfl

end Decimal

/-! ## Ranges -/

namespace Range

/-- Neither bound is the negative zero. -/
def Unsigned (r : Range) : Prop := r.minimum ≠ -0 ∧ r.maximum ≠ -0

def items (r : Range) : List RegionItem :=
  if r.isUnbounded then [.number r.minimum, .flag ':']
  else if r.minimum == r.maximum then [.number r.minimum]
  else [.number r.minimum, .flag ':', .number r.maximum]

end Range

def RegionItem.kind : RegionItem → LexemeKind
  | flag c => .symbol (.flag c)
  | number value => .text (Decimal.text value)

namespace Range

variable {r : Range}

theorem Unsigned.not_negative_minimum (h : r.Unsigned) : Decimal.negative r.minimum = false :=
  Decimal.not_negative r.zero_le_minimum h.1

theorem Unsigned.not_negative_maximum (h : r.Unsigned) : Decimal.negative r.maximum = false :=
  Decimal.not_negative r.zero_le_maximum h.2

theorem Unsigned.of_not_negative (hmin : Decimal.negative r.minimum = false)
    (hmax : Decimal.negative r.maximum = false) : r.Unsigned := by
  constructor
  · intro h
    rw [h] at hmin
    cases hmin
  · intro h
    rw [h] at hmax
    cases hmax

instance : DecidablePred Unsigned := fun r =>
  decidable_of_iff (Decimal.negative r.minimum = false ∧ Decimal.negative r.maximum = false)
    ⟨fun h => .of_not_negative h.1 h.2, fun h => ⟨h.not_negative_minimum, h.not_negative_maximum⟩⟩

theorem Unsigned.written_minimum (h : r.Unsigned) :
    Decimal.Written r.minimum (Decimal.write .plain r.minimum) :=
  Decimal.written_write (isNaN_of_le r.zero_le_minimum).2 h.not_negative_minimum

theorem Unsigned.written_maximum (h : r.Unsigned) :
    Decimal.Written r.maximum (Decimal.write .plain r.maximum) :=
  Decimal.written_write (isNaN_of_le r.zero_le_maximum).2 h.not_negative_maximum

theorem kinds_write (hr : r.Unsigned) {c : Char} {s : Symbol} {after : Bool}
    (h : Lexeme.Marks true c s after) (rest : List Char) :
    Lexeme.kinds true [] (r.write ++ c :: rest) =
      r.items.map RegionItem.kind ++ .symbol s :: Lexeme.kinds after [] rest := by
  have hmin := hr.written_minimum
  have hcolon : Lexeme.Marks true ':' (.flag ':') true := ⟨rfl, rfl⟩
  unfold write items
  split
  · rw [List.append_assoc, List.singleton_append, Decimal.kinds_number hmin hcolon,
      Lexeme.kinds_symbol h]
    rfl
  · split
    · rw [Decimal.kinds_number hmin h]
      rfl
    · rw [List.append_assoc, List.cons_append, Decimal.kinds_number hmin hcolon,
        Decimal.kinds_number hr.written_maximum h]
      rfl

end Range

/-! ## Limits -/

namespace Limit

def range : Limit → Range
  | occurrences range | timing range => range

def region : Limit → RegionKind
  | occurrences _ => .occurrences
  | timing _ => .timing

def items : Limit → List RegionItem
  | occurrences range => range.items
  | timing range => .flag 's' :: range.items

def write : Limit → List Char
  | occurrences range => '[' :: range.write ++ [']']
  | timing range => '\x7b' :: 's' :: range.write ++ ['\x7d']

end Limit

def RegionKind.opening : RegionKind → Symbol
  | occurrences => .countOpen
  | timing => .timingOpen

namespace Limit

def kinds (l : Limit) : List LexemeKind :=
  .symbol l.region.opening :: l.items.map RegionItem.kind ++ [.symbol l.region.close]

theorem kinds_write {l : Limit} (hl : l.range.Unsigned) (run rest : List Char) :
    Lexeme.kinds false run (l.write ++ rest) =
      Lexeme.flush run ++ l.kinds ++ Lexeme.kinds false [] rest := by
  cases l with
  | occurrences range =>
    have hrange : range.Unsigned := hl
    have hopening : Lexeme.Marks false '[' .countOpen true := ⟨rfl, rfl⟩
    have hclose : Lexeme.Marks true ']' .countClose false := ⟨rfl, rfl⟩
    simp only [write, List.cons_append, List.append_assoc, List.nil_append]
    rw [Lexeme.kinds_symbol hopening, Range.kinds_write hrange hclose]
    simp [kinds, items, region, RegionKind.opening, RegionKind.close]
  | timing range =>
    have hrange : range.Unsigned := hl
    have hopening : Lexeme.Marks false '\x7b' .timingOpen true := ⟨rfl, rfl⟩
    have hmark : Lexeme.Marks true 's' (.flag 's') true := ⟨rfl, rfl⟩
    have hclose : Lexeme.Marks true '\x7d' .timingClose false := ⟨rfl, rfl⟩
    simp only [write, List.cons_append, List.append_assoc, List.nil_append]
    rw [Lexeme.kinds_symbol hopening, Lexeme.kinds_symbol hmark, Range.kinds_write hrange hclose]
    simp [kinds, items, region, RegionKind.opening, RegionKind.close, RegionItem.kind,
      Lexeme.flush_of_blank]

end Limit

namespace Tally

/-- The limits of a node, time first. -/
def limits (t : Tally) : List Limit :=
  (t.timing.map Limit.timing).toList ++ (t.occurrences.map Limit.occurrences).toList

theorem write_eq (t : Tally) : t.write = t.limits.flatMap Limit.write := by
  obtain ⟨occurrences, timing, matched⟩ := t
  cases timing <;> cases occurrences <;> simp [write, limits, Limit.write]

theorem kinds_write {t : Tally} (ht : ∀ l ∈ t.limits, l.range.Unsigned) {rest : List Char}
    (hrest : Lexeme.Stops rest) : Lexeme.Stops (t.write ++ rest) ∧
      Lexeme.kinds false [] (t.write ++ rest) =
        t.limits.flatMap Limit.kinds ++ Lexeme.kinds false [] rest := by
  rw [write_eq]
  generalize t.limits = limits at ht
  induction limits with
  | nil => exact ⟨hrest, rfl⟩
  | cons l limits ih =>
    obtain ⟨-, hkinds⟩ := ih fun m hm => ht m (List.mem_cons_of_mem _ hm)
    have hl := ht l (List.mem_cons_self ..)
    rw [List.flatMap_cons, List.flatMap_cons, List.append_assoc, List.append_assoc, ← hkinds]
    refine ⟨⟨?_, fun run => ?_⟩, Limit.kinds_write hl [] _⟩
    · cases l <;> simp [Limit.write]
    · rw [Limit.kinds_write hl, Limit.kinds_write hl, List.append_assoc]
      rfl

end Tally

/-! ## Names -/

theorem ofChar?_of_not_reserved {c : Char} (h : c ∉ reserved) : Symbol.ofChar? false c = none := by
  have hbracket : Symbol.regionBracket? c = none := by
    unfold Symbol.regionBracket?
    split <;> first | rfl | exact absurd (by decide) h
  have hseparator : Symbol.separator? c = none := by
    unfold Symbol.separator?
    split <;> first | rfl | exact absurd (by decide) h
  simp [Symbol.ofChar?, hbracket, hseparator]

theorem head?_writeName {name rest : List Char} (hname : name.head? ≠ some '>')
    (hrest : rest.head? ≠ some '>') : (writeName name ++ rest).head? ≠ some '>' := by
  cases name with
  | nil => exact hrest
  | cons c name =>
    unfold writeName
    split
    · simp [Symbol.escape]
    · simpa using hname

theorem kinds_writeName {name rest : List Char} (hrest : rest.head? ≠ some '>')
    (run : List Char) : Lexeme.kinds false run (writeName name ++ rest) =
      Lexeme.kinds false (run ++ name) rest := by
  induction name generalizing run with
  | nil => rw [writeName, List.nil_append, List.append_nil]
  | cons c name ih =>
    have hrun : run ++ c :: name = (run ++ [c]) ++ name := by rw [List.append_assoc]; rfl
    unfold writeName
    split
    · rw [List.cons_append, List.cons_append, Lexeme.kinds_escaped, ih, hrun]
    · rename_i hplain
      simp only [needsEscape, Bool.or_eq_true, Bool.and_eq_true, decide_eq_true_eq, not_or,
        not_and] at hplain
      obtain ⟨hreserved, hpair⟩ := hplain
      have hescape : c ≠ Symbol.escape := by
        rintro rfl
        exact hreserved (by decide)
      rw [List.cons_append, Lexeme.kinds_plain hescape (ofChar?_of_not_reserved hreserved), ih,
        hrun]
      intro d hd
      by_cases hc : c ∈ ['-', '=']
      · cases hs : Symbol.ofPair? c d with
        | none => rfl
        | some s =>
          obtain rfl := Lexeme.ofPair?_eq_some hs
          exact absurd hd (head?_writeName (hpair hc) hrest)
      · exact Lexeme.ofPair?_eq_none hc d

/-! ## Trees -/

def Operator.symbol : Operator → Symbol
  | and => .and
  | or => .or

theorem Operator.kinds_text (op : Operator) (rest : List Char) :
    Lexeme.Stops (' ' :: (op.text.toList ++ ' ' :: rest)) ∧
      Lexeme.kinds false [] (' ' :: (op.text.toList ++ ' ' :: rest)) =
        .symbol op.symbol :: Lexeme.kinds false [' '] rest := by
  obtain ⟨c, htext, hs⟩ : ∃ c, op.text.toList = [c] ∧ Lexeme.Marks false c op.symbol false := by
    cases op with
    | and => exact ⟨'&', rfl, rfl, rfl⟩
    | or => exact ⟨'|', rfl, rfl, rfl⟩
  rw [htext, List.singleton_append]
  refine ⟨Lexeme.stops_blank (Lexeme.stops_symbol hs _), ?_⟩
  rw [Lexeme.kinds_blank, Lexeme.kinds_symbol hs, Lexeme.kinds_blank, List.nil_append,
    Lexeme.flush_of_blank Lexeme.isBlank_space]
  rfl

namespace Expression

/-- The ranges that limit the nodes of the tree. -/
def ranges : Expression → List Range
  | leaf _ _ t => t.limits.map Limit.range
  | conditional _ left right t => left.ranges ++ right.ranges ++ t.limits.map Limit.range

def kinds : Expression → List LexemeKind
  | leaf _ name t => .text name :: t.limits.flatMap Limit.kinds
  | conditional op left right t =>
    .symbol .groupOpen :: left.kinds ++ .symbol op.symbol :: right.kinds ++
      .symbol .groupClose :: t.limits.flatMap Limit.kinds

theorem kinds_write {r : Registry} {e : Expression} (he : e.Compiled r)
    (hunsigned : ∀ range ∈ e.ranges, range.Unsigned) {run rest : List Char}
    (hrun : ∀ c ∈ run, Text.isBlank c = true) (hrest : Lexeme.Stops rest) :
    Lexeme.kinds false run (e.write ++ rest) = e.kinds ++ Lexeme.kinds false [] rest := by
  induction e generalizing run rest with
  | leaf behavior name t =>
    obtain ⟨hstops, hkinds⟩ := @Tally.kinds_write t (by simpa [ranges] using hunsigned) rest hrest
    rw [write, List.append_assoc, kinds_writeName hstops.head, hstops.kinds, hkinds,
      Lexeme.flush_trimmed hrun he.2.1, String.ofList_toList]
    rfl
  | conditional op left right t ihl ihr =>
    simp only [ranges, List.mem_append] at hunsigned
    have hopening : Lexeme.Marks false '(' .groupOpen false := ⟨rfl, rfl⟩
    have hclosing : Lexeme.Marks false ')' .groupClose false := ⟨rfl, rfl⟩
    obtain ⟨-, ht⟩ := @Tally.kinds_write t
      (fun l hl => hunsigned _ (.inr (List.mem_map_of_mem hl))) rest hrest
    have hclose := Lexeme.stops_symbol hclosing (t.write ++ rest)
    obtain ⟨hop, hkindsOp⟩ := op.kinds_text (right.write ++ ')' :: (t.write ++ rest))
    simp only [write, List.cons_append, List.append_assoc]
    rw [Lexeme.kinds_symbol hopening, Lexeme.flush_of_blank hrun,
      ihl he.1 (fun range h => hunsigned range (.inl (.inl h))) (by simp) hop, hkindsOp,
      ihr he.2.1 (fun range h => hunsigned range (.inl (.inr h))) Lexeme.isBlank_space hclose,
      Lexeme.kinds_symbol hclosing, ht]
    simp [kinds, Lexeme.flush_of_blank]

end Expression

/-! ## Arrows -/

/-- Not an arrow, and so a part of a step. -/
def LexemeKind.Inner (k : LexemeKind) : Prop := k ≠ .symbol .next ∧ k ≠ .symbol .result

theorem RegionItem.inner_kind (item : RegionItem) : item.kind.Inner := by
  cases item <;> exact ⟨nofun, nofun⟩

theorem Limit.inner_kinds (l : Limit) : ∀ k ∈ l.kinds, k.Inner := by
  have hopening : (LexemeKind.symbol l.region.opening).Inner := by
    cases l <;> exact ⟨nofun, nofun⟩
  have hclose : (LexemeKind.symbol l.region.close).Inner := by
    cases l <;> exact ⟨nofun, nofun⟩
  intro k hk
  simp only [kinds, List.cons_append, List.mem_cons, List.mem_append, List.mem_map,
    List.not_mem_nil, or_false] at hk
  rcases hk with rfl | ⟨item, -, rfl⟩ | rfl
  · exact hopening
  · exact item.inner_kind
  · exact hclose

theorem Expression.inner_kinds (e : Expression) : ∀ k ∈ e.kinds, k.Inner := by
  have hlimits : ∀ t : Tally, ∀ k ∈ t.limits.flatMap Limit.kinds, k.Inner := by
    intro t k hk
    obtain ⟨l, -, hk⟩ := List.mem_flatMap.1 hk
    exact l.inner_kinds k hk
  induction e with
  | leaf behavior name t =>
    intro k hk
    rcases List.mem_cons.1 hk with rfl | hk
    · exact ⟨nofun, nofun⟩
    · exact hlimits t k hk
  | conditional op left right t ihl ihr =>
    intro k hk
    simp only [kinds, List.cons_append, List.append_assoc, List.mem_cons, List.mem_append] at hk
    rcases hk with rfl | hk | rfl | hk | rfl | hk
    · exact ⟨nofun, nofun⟩
    · exact ihl k hk
    · cases op <;> exact ⟨nofun, nofun⟩
    · exact ihr k hk
    · exact ⟨nofun, nofun⟩
    · exact hlimits t k hk

theorem symbol_not_mem_flush (s : Symbol) (run : List Char) : .symbol s ∉ Lexeme.flush run := by
  unfold Lexeme.flush
  split <;> simp

theorem ofChar?_ne_result {inRegion : Bool} {c : Char} :
    Symbol.ofChar? inRegion c ≠ some .result := by
  unfold Symbol.ofChar? Symbol.regionBracket? Symbol.separator?
  grind

theorem head?_writeResult {name : List Char} (h : (Pattern.writeResult name).head? = some '>') :
    name.head? = some '>' := by
  cases name with
  | nil => exact h
  | cons c name =>
    unfold Pattern.writeResult at h
    split at h
    · cases h
    · exact h

theorem ofPair?_writeResult {c : Char} {name : List Char}
    (hdash : ¬ (c = '-' ∧ name.head? = some '>')) (hequals : ¬ (c = '=' ∧ name.head? = some '>')) :
    ∀ d ∈ (Pattern.writeResult name).head?, Symbol.ofPair? c d = none := by
  intro d hd
  cases hs : Symbol.ofPair? c d with
  | none => rfl
  | some s =>
    obtain rfl := Lexeme.ofPair?_eq_some hs
    have hhead := head?_writeResult hd
    by_cases hc : c ∈ ['-', '=']
    · simp only [List.mem_cons, List.not_mem_nil, or_false] at hc
      rcases hc with rfl | rfl
      · exact absurd ⟨rfl, hhead⟩ hdash
      · exact absurd ⟨rfl, hhead⟩ hequals
    · rw [Lexeme.ofPair?_eq_none hc] at hs
      simp at hs

theorem result_not_mem_kinds (inRegion : Bool) (run name : List Char) :
    .symbol .result ∉ Lexeme.kinds inRegion run (Pattern.writeResult name) := by
  induction hlength : name.length using Nat.strongRecOn generalizing inRegion run name with
  | ind n ih =>
    subst hlength
    cases name with
    | nil => exact symbol_not_mem_flush _ _
    | cons c name =>
      have hname := fun inRegion run => ih name.length (Nat.lt_succ_self _) inRegion run name rfl
      unfold Pattern.writeResult
      split
      · rw [Lexeme.kinds_escaped]
        exact hname _ _
      · rename_i hplain
        rw [not_or] at hplain
        obtain ⟨hescape, hequals⟩ := hplain
        cases hs : Symbol.ofChar? inRegion c with
        | some s =>
          rw [Lexeme.kinds_symbol ⟨hs, rfl⟩, List.mem_append, List.mem_cons]
          rintro (h | h | h)
          · exact symbol_not_mem_flush _ _ h
          · cases h
            exact ofChar?_ne_result hs
          · exact hname _ _ h
        | none =>
          -- An arrow takes up two characters at once.
          by_cases hdash : c = '-' ∧ name.head? = some '>'
          · obtain ⟨rfl, hhead⟩ := hdash
            obtain ⟨rest, rfl⟩ := List.head?_eq_some_iff.1 hhead
            have hwrite : Pattern.writeResult ('>' :: rest) = '>' :: Pattern.writeResult rest := by
              simp [Pattern.writeResult, Symbol.escape]
            rw [hwrite, Lexeme.kinds_pair hs rfl, List.mem_append, List.mem_cons]
            rintro (h | h | h)
            · exact symbol_not_mem_flush _ _ h
            · simp at h
            · refine ih rest.length ?_ _ _ rest rfl h
              simp only [List.length_cons]
              omega
          · rw [Lexeme.kinds_plain hescape hs (ofPair?_writeResult hdash hequals)]
            exact hname _ _

/-! ## Patterns -/

namespace Pattern

def stepKinds : List Expression → List LexemeKind
  | [] => []
  | [step] => step.kinds
  | step :: rest => step.kinds ++ .symbol .next :: stepKinds rest

theorem result_not_mem_stepKinds (steps : List Expression) :
    .symbol .result ∉ stepKinds steps := by
  fun_induction stepKinds steps with
  | case1 => exact List.not_mem_nil
  | case2 step => exact fun h => (step.inner_kinds _ h).2 rfl
  | case3 step rest hne ih =>
    rw [List.mem_append, List.mem_cons]
    rintro (h | h | h)
    · exact (step.inner_kinds _ h).2 rfl
    · simp at h
    · exact ih h

theorem kinds_arrow {c : Char} {s : Symbol} (hnone : Symbol.ofChar? false c = none)
    (hs : Symbol.ofPair? c '>' = some s) (rest : List Char) :
    Lexeme.Stops ([' ', c, '>', ' '] ++ rest) ∧
      Lexeme.kinds false [] ([' ', c, '>', ' '] ++ rest) =
        .symbol s :: Lexeme.kinds false [' '] rest := by
  refine ⟨Lexeme.stops_blank (Lexeme.stops_pair hnone hs _), ?_⟩
  simp only [List.cons_append, List.nil_append]
  rw [Lexeme.kinds_blank, Lexeme.kinds_pair hnone hs, Lexeme.kinds_blank, List.nil_append,
    Lexeme.flush_of_blank Lexeme.isBlank_space]
  rfl

theorem kinds_writeSteps {r : Registry} {steps : List Expression}
    (hsteps : ∀ step ∈ steps, step.Compiled r ∧ ∀ range ∈ step.ranges, range.Unsigned)
    (hne : steps ≠ []) {run rest : List Char} (hrun : ∀ c ∈ run, Text.isBlank c = true)
    (hrest : Lexeme.Stops rest) : Lexeme.kinds false run (writeSteps steps ++ rest) =
      stepKinds steps ++ Lexeme.kinds false [] rest := by
  induction steps generalizing run with
  | nil => exact absurd rfl hne
  | cons step steps ih =>
    obtain ⟨hcompiled, hunsigned⟩ := hsteps step (List.mem_cons_self ..)
    cases steps with
    | nil => exact Expression.kinds_write hcompiled hunsigned hrun hrest
    | cons next steps =>
      obtain ⟨hstops, harrow⟩ := @kinds_arrow '-' .next rfl rfl
        (writeSteps (next :: steps) ++ rest)
      have hnext := ih (fun e he => hsteps e (List.mem_cons_of_mem _ he)) (List.cons_ne_nil _ _)
        Lexeme.isBlank_space
      simp only [writeSteps, stepKinds, List.append_assoc] at hnext ⊢
      rw [Expression.kinds_write hcompiled hunsigned hrun hstops, harrow, hnext]
      rfl

theorem kinds_write {r : Registry} {p : Pattern}
    (hsteps : ∀ step ∈ p.steps, step.Compiled r ∧ ∀ range ∈ step.ranges, range.Unsigned)
    (hne : p.steps ≠ []) : ∃ name, .symbol .result ∉ name ∧
      Lexeme.kinds false [] p.write = stepKinds p.steps ++ .symbol .result :: name := by
  obtain ⟨hstops, harrow⟩ := @kinds_arrow '=' .result rfl rfl
    (writeResult p.name.toList)
  refine ⟨_, result_not_mem_kinds false [' '] p.name.toList, ?_⟩
  unfold write
  rw [List.append_assoc, kinds_writeSteps hsteps hne (by simp) hstops, harrow]

end Pattern

end TimedPattern
