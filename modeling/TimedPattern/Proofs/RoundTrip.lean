import Mathlib.Data.List.Forall2
import TimedPattern.Proofs.Grammar
import TimedPattern.Proofs.Rendering

/-!
# Reading back what was written

The lexemes of a step that was written are those of a sentence, whose tree is the step.
-/

open List (Forall₂)

namespace TimedPattern

/-! ## Ranges -/

namespace Decimal

theorem eq_infinity {x : Float} (hle : 0 ≤ x) (h : x.isInf = true) : x = infinity := by
  obtain ⟨o, ho, hle⟩ := (le_iff_compare 0 x).1 hle
  obtain ⟨s, hs⟩ := (isInf_iff x).1 h
  apply datum_injective
  rw [hs, datum_zero] at ho
  rw [hs, datum_infinity]
  cases s with
  | positive => rfl
  | negative =>
    cases ho
    simp at hle

theorem eq_of_beq_of_not_negative {x y : Float} (hx : negative x = false)
    (hy : negative y = false) (h : (x == y) = true) : x = y := by
  rcases datum_cases hy with hd | hd | hd | ⟨m, e, hm, -, hd, -⟩
  · exact eq_of_beq (by simp [hd]) h
  · exact eq_of_beq (by simp [hd]) h
  · rw [beq_iff_compare, hd] at h
    apply datum_injective
    rw [hd]
    rcases datum_cases hx with hc | hc | hc | ⟨m, e, hm, -, hc, -⟩
    · rw [hc] at h
      cases h
    · rw [hc] at h
      cases h
    · exact hc
    · rw [hc] at h
      cases h
  · exact eq_of_beq (by simp [hd]) h

end Decimal

namespace Range

variable {r : Range}

theorem between_bounds (r : Range) : between r.minimum r.maximum = .ok r := by
  have hmin := (isNaN_of_le r.zero_le_minimum).2
  have hmax := (isNaN_of_le r.zero_le_maximum).2
  unfold between
  rw [if_neg (by rw [hmin, hmax]; decide), dif_pos r.zero_le_minimum, dif_pos r.zero_le_maximum,
    dif_pos r.ordered]

theorem range?_items (h : r.Unsigned) : Region.range? r.items = some (.ok r) := by
  unfold items
  split
  · rename_i hunbounded
    have hbounds := r.between_bounds
    rw [Decimal.eq_infinity r.zero_le_maximum hunbounded] at hbounds
    exact congrArg some hbounds
  · split
    · rename_i hequal
      have hbounds := r.between_bounds
      rw [← Decimal.eq_of_beq_of_not_negative h.not_negative_minimum h.not_negative_maximum hequal]
        at hbounds
      exact congrArg some hbounds
    · exact congrArg some r.between_bounds

theorem count?_items (h : r.Unsigned) :
    Region.count? (Region.withoutTimes r.items) = some (.ok r) := by
  rw [← range?_items h]
  unfold items
  split
  · rfl
  · split
    · rfl
    · rfl

end Range

/-! ## Regions -/

/-- A number must be read back. -/
def RegionItem.Legible : RegionItem → Prop
  | flag _ => True
  | number value => Decimal.read? (Decimal.write .plain value) = some value

theorem Range.items_legible {r : Range} (h : r.Unsigned) : ∀ item ∈ r.items, item.Legible := by
  have hmin : (RegionItem.number r.minimum).Legible := h.written_minimum.read?
  have hmax : (RegionItem.number r.maximum).Legible := h.written_maximum.read?
  have hcolon : (RegionItem.flag ':').Legible := trivial
  unfold items
  split
  · simp [hmin, hcolon]
  · split
    · simp [hmin]
    · simp [hmin, hcolon, hmax]

namespace Limit

/-- The bounds have no sign, and a time limit is a window. -/
def Legible : Limit → Prop
  | occurrences range => range.Unsigned
  | timing range => range.Unsigned ∧ range.asWindow = range

variable {l : Limit}

theorem Legible.items (h : l.Legible) : ∀ item ∈ l.items, item.Legible := by
  cases l with
  | occurrences range => exact Range.items_legible h
  | timing range =>
    intro item hitem
    rcases List.mem_cons.1 hitem with rfl | hitem
    · trivial
    · exact Range.items_legible h.1 item hitem

theorem Legible.token (h : l.Legible) (position : Nat) :
    Region.token ⟨l.region, position, l.items⟩ = .ok ⟨l.kind, position⟩ := by
  cases l with
  | occurrences range =>
    simp only [Region.token, region, Limit.items, Region.readOccurrences, Range.count?_items h]
    rfl
  | timing range =>
    simp only [Region.token, region, Limit.items, Region.readTiming, Range.range?_items h.1,
      Region.place, Except.map, h.2]
    rfl

end Limit

/-- A lexeme of a region spells an item, a number in whatever way. -/
def RegionItem.SpelledBy (item : RegionItem) (l : Lexeme) : Prop :=
  match item with
  | flag c => l.kind = .symbol (.flag c)
  | number value => ∃ t, l.kind = .text t ∧ Decimal.read? t.toList = some value

theorem RegionItem.Legible.spelledBy {item : RegionItem} (h : item.Legible) {l : Lexeme}
    (hl : l.kind = item.kind) : item.SpelledBy l := by
  cases item with
  | flag c => exact hl
  | number value =>
    refine ⟨Decimal.text value, hl, ?_⟩
    rw [Decimal.text, String.toList_ofList]
    exact h

theorem RegionItem.spelledBy_of_kinds {items : List RegionItem}
    (hitems : ∀ item ∈ items, item.Legible) {lexemes : List Lexeme}
    (h : lexemes.map Lexeme.kind = items.map RegionItem.kind) :
    Forall₂ RegionItem.SpelledBy items lexemes := by
  induction items generalizing lexemes with
  | nil =>
    rw [List.map_nil, List.map_eq_nil_iff] at h
    rw [h]
    exact .nil
  | cons item items ih =>
    rw [List.forall_mem_cons] at hitems
    obtain ⟨l, lexemes, rfl, hl, hlexemes⟩ := List.map_eq_cons_iff.1 h
    exact .cons (hitems.1.spelledBy hl) (ih hitems.2 hlexemes)

theorem Region.item_of_spelledBy (r : Region) {item : RegionItem} {l : Lexeme}
    (h : item.SpelledBy l) : r.item l = .ok item := by
  unfold Region.item
  cases item with
  | flag c => simp only [show l.kind = .symbol (.flag c) from h]
  | number value =>
    obtain ⟨t, hl, hread⟩ := h
    simp only [hl, hread]

theorem RegionItem.SpelledBy.not_close {item : RegionItem} {l : Lexeme} (h : item.SpelledBy l)
    (kind : RegionKind) : l.isSymbol kind.close = false := by
  unfold Lexeme.isSymbol
  cases item with
  | flag c =>
    rw [show l.kind = .symbol (.flag c) from h]
    cases kind <;> simp [RegionKind.close]
  | number value =>
    obtain ⟨t, hl, -⟩ := h
    simp [hl]

/-! ## Tokens -/

namespace Token

/-- Lexemes outside regions that are read as tokens, whatever stands behind them. -/
def Reads (lexemes : List Lexeme) (tokens : List Token) : Prop :=
  ∀ rest, read none (lexemes ++ rest) = (read none rest).map (tokens ++ ·)

theorem Reads.append {lexemes others : List Lexeme} {tokens more : List Token}
    (h : Reads lexemes tokens) (hothers : Reads others more) :
    Reads (lexemes ++ others) (tokens ++ more) := by
  intro rest
  rw [List.append_assoc, h, hothers, map_append_map]

theorem reads_singleton {l : Lexeme} {kind : TokenKind}
    (h : Reading.ofLexeme l.kind = .token kind) : Reads [l] [⟨kind, l.position⟩] := by
  intro rest
  rw [List.singleton_append, read]
  simp only [h]
  rfl

theorem Reads.ofLexemes_eq {lexemes : List Lexeme} {tokens : List Token}
    (h : Reads lexemes tokens) : Token.ofLexemes lexemes = .ok tokens := by
  have hread := h []
  rw [List.append_nil] at hread
  unfold Token.ofLexemes
  rw [hread, read]
  exact congrArg Except.ok (List.append_nil _)

theorem read_items {items : List RegionItem} {lexemes : List Lexeme}
    (h : Forall₂ RegionItem.SpelledBy items lexemes) (r : Region) (rest : List Lexeme) :
    read (some r) (lexemes ++ rest) = read (some { r with items := r.items ++ items }) rest := by
  induction h generalizing r with
  | nil =>
    rw [List.append_nil]
    rfl
  | cons hitem _ ih =>
    rw [List.cons_append, read, hitem.not_close r.kind, if_neg Bool.false_ne_true]
    simp only [r.item_of_spelledBy hitem]
    rw [ih, List.append_assoc]
    rfl

theorem read_region {kind : RegionKind} {opening close : Lexeme} {inner : List Lexeme}
    {items : List RegionItem} (hopening : Reading.ofLexeme opening.kind = .region kind)
    (hinner : Forall₂ RegionItem.SpelledBy items inner)
    (hclose : close.isSymbol kind.close = true) (rest : List Lexeme) :
    read none (opening :: (inner ++ close :: rest)) =
      (Region.token ⟨kind, opening.position, items⟩).bind fun token =>
        (read none rest).map (token :: ·) := by
  rw [read]
  simp only [hopening]
  rw [read_items hinner ⟨kind, opening.position, []⟩, read, hclose, if_pos rfl, List.nil_append]
  cases Region.token ⟨kind, opening.position, items⟩ <;> rfl

theorem reads_region {kind : RegionKind} {opening close : Lexeme} {inner : List Lexeme}
    {items : List RegionItem} {token : Token}
    (hopening : Reading.ofLexeme opening.kind = .region kind)
    (hinner : Forall₂ RegionItem.SpelledBy items inner)
    (hclose : close.isSymbol kind.close = true)
    (htoken : Region.token ⟨kind, opening.position, items⟩ = .ok token) :
    Reads (opening :: (inner ++ [close])) [token] := by
  intro rest
  rw [List.cons_append, List.append_assoc, List.singleton_append,
    read_region hopening hinner hclose, htoken]
  rfl

theorem exists_reads_limit {l : Limit} (hl : l.Legible) {lexemes : List Lexeme}
    (h : lexemes.map Lexeme.kind = l.kinds) :
    ∃ position, Reads lexemes [⟨l.kind, position⟩] := by
  rw [Limit.kinds, List.cons_append] at h
  obtain ⟨opening, others, rfl, hopening, hothers⟩ := List.map_eq_cons_iff.1 h
  obtain ⟨inner, others, rfl, hinner, hothers⟩ := List.map_eq_append_iff.1 hothers
  obtain ⟨close, others, rfl, hclose, hothers⟩ := List.map_eq_cons_iff.1 hothers
  obtain rfl := List.map_eq_nil_iff.1 hothers
  have hregion : Reading.ofLexeme opening.kind = .region l.region := by
    rw [hopening]
    cases l <;> rfl
  have hspelled := RegionItem.spelledBy_of_kinds hl.items hinner
  exact ⟨opening.position,
    reads_region hregion hspelled (decide_eq_true hclose) (hl.token opening.position)⟩

end Token

/-! ## Sentences -/

theorem Registry.intern_of_name? {r : Registry} {id : BehaviorId} {name : String}
    (h : r.name? id = some name) : r.intern name = (id, r) := by
  have hget := Registry.get?_eq_some_iff.2 h
  unfold Registry.get? at hget
  unfold Registry.intern
  split at hget
  · rename_i hmem
    obtain rfl := Option.some.inj hget
    exact dif_pos hmem
  · simp at hget

namespace Tally

theorem limits_legible {t : Tally} (ht : t.Compiled)
    (hunsigned : ∀ l ∈ t.limits, l.range.Unsigned) : ∀ l ∈ t.limits, l.Legible := by
  intro l hl
  have hl' := hunsigned l hl
  cases l with
  | occurrences range => exact hl'
  | timing range =>
    refine ⟨hl', ht.window range ?_⟩
    simpa [limits] using hl

theorem foldl_limits {t : Tally} (ht : t.Compiled) :
    t.limits.foldl (fun t l => l.apply t) {} = t := by
  have hfresh := ht.fresh
  obtain ⟨occurrences, timing, matched⟩ := t
  obtain rfl : matched = ∅ := hfresh
  cases timing <;> cases occurrences <;> rfl

end Tally

namespace Factor

def joined (op : Operator) (opened : Nat) (left : Factor) (position : Nat) (right : Factor)
    (closed : Nat) : Factor :=
  match op with
  | .and => .group opened (.one (.and (.one left) position right)) closed
  | .or => .group opened (.or (.one (.one left)) position (.one right)) closed

theorem tokens_joined (op : Operator) (opened position closed : Nat) (left right : Factor) :
    (joined op opened left position right closed).tokens =
      [⟨.groupOpen, opened⟩] ++ (left.tokens ++ ([⟨.operator op, position⟩] ++
        (right.tokens ++ [⟨.groupClose, closed⟩]))) := by
  cases op <;> simp [joined, Factor.tokens, Disjunction.tokens, Conjunction.tokens]

theorem reads_joined {left right : Factor} {lefts rights : List Lexeme}
    (hleft : Token.Reads lefts left.tokens) (hright : Token.Reads rights right.tokens)
    {opening middle close : Lexeme} {op : Operator} (hopening : opening.kind = .symbol .groupOpen)
    (hmiddle : middle.kind = .symbol op.symbol) (hclose : close.kind = .symbol .groupClose) :
    Token.Reads ([opening] ++ (lefts ++ ([middle] ++ (rights ++ [close]))))
      (joined op opening.position left middle.position right close.position).tokens := by
  have hreadsOpening : Token.Reads [opening] [⟨.groupOpen, opening.position⟩] :=
    Token.reads_singleton (by rw [hopening]; rfl)
  have hreadsMiddle : Token.Reads [middle] [⟨.operator op, middle.position⟩] :=
    Token.reads_singleton (by rw [hmiddle]; cases op <;> rfl)
  have hreadsClose : Token.Reads [close] [⟨.groupClose, close.position⟩] :=
    Token.reads_singleton (by rw [hclose]; rfl)
  rw [tokens_joined]
  exact hreadsOpening.append (hleft.append (hreadsMiddle.append (hright.append hreadsClose)))

theorem tree_joined {r : Registry} {left right : Factor} {l e : Expression}
    (hleft : left.tree r = (l, r)) (hright : right.tree r = (e, r)) (op : Operator)
    (opened position closed : Nat) :
    (joined op opened left position right closed).tree r = (.conditional op l e {}, r) := by
  cases op <;> simp [joined, Factor.tree, Disjunction.tree, Conjunction.tree, hleft, hright]

theorem exists_limited {limits : List Limit} (hlimits : ∀ l ∈ limits, l.Legible)
    {lexemes others : List Lexeme} {f : Factor} (hf : Token.Reads lexemes f.tokens)
    (h : others.map Lexeme.kind = limits.flatMap Limit.kinds) :
    ∃ g : Factor, Token.Reads (lexemes ++ others) g.tokens ∧ ∀ r, g.tree r =
      ((f.tree r).1.mapTally (limits.foldl fun t l => l.apply t), (f.tree r).2) := by
  induction limits generalizing f lexemes others with
  | nil =>
    rw [List.flatMap_nil, List.map_eq_nil_iff] at h
    rw [h, List.append_nil]
    refine ⟨f, hf, fun r => ?_⟩
    cases f.tree r with
    | mk e grown => cases e <;> rfl
  | cons l limits ih =>
    rw [List.flatMap_cons] at h
    obtain ⟨first, others, rfl, hfirst, hothers⟩ := List.map_eq_append_iff.1 h
    obtain ⟨position, hl⟩ := Token.exists_reads_limit (hlimits l (List.mem_cons_self ..)) hfirst
    have hlimited : Token.Reads (lexemes ++ first) (Factor.limited f l position).tokens :=
      hf.append hl
    obtain ⟨g, hg, htree⟩ := ih (fun m hm => hlimits m (List.mem_cons_of_mem _ hm)) hlimited hothers
    rw [List.append_assoc] at hg
    refine ⟨g, hg, fun r => ?_⟩
    rw [htree, Factor.tree]
    cases f.tree r with
    | mk e grown => cases e <;> rfl

end Factor

namespace Expression

theorem exists_factor {r : Registry} {e : Expression} (he : e.Compiled r)
    (hunsigned : ∀ range ∈ e.ranges, range.Unsigned) {lexemes : List Lexeme}
    (h : lexemes.map Lexeme.kind = e.kinds) :
    ∃ f : Factor, Token.Reads lexemes f.tokens ∧ f.tree r = (e, r) := by
  induction e generalizing lexemes with
  | leaf behavior name t =>
    obtain ⟨l, others, rfl, hl, hothers⟩ := List.map_eq_cons_iff.1 h
    have hlimits := Tally.limits_legible he.2.2 (by simpa [ranges] using hunsigned)
    have hname : Token.Reads [l] (Factor.behavior name l.position).tokens :=
      Token.reads_singleton (by rw [hl]; rfl)
    obtain ⟨f, hf, htree⟩ := Factor.exists_limited hlimits hname hothers
    refine ⟨f, hf, ?_⟩
    rw [htree, Factor.tree, Registry.intern_of_name? he.1]
    simp only [mapTally, Tally.foldl_limits he.2.2]
  | conditional op left right t ihl ihr =>
    simp only [ranges, List.mem_append] at hunsigned
    simp only [kinds, List.cons_append, List.append_assoc] at h
    obtain ⟨opening, others, rfl, hopening, hothers⟩ := List.map_eq_cons_iff.1 h
    obtain ⟨lefts, others, rfl, hlefts, hothers⟩ := List.map_eq_append_iff.1 hothers
    obtain ⟨middle, others, rfl, hmiddle, hothers⟩ := List.map_eq_cons_iff.1 hothers
    obtain ⟨rights, others, rfl, hrights, hothers⟩ := List.map_eq_append_iff.1 hothers
    obtain ⟨close, others, rfl, hclose, hothers⟩ := List.map_eq_cons_iff.1 hothers
    obtain ⟨f, hf, hleft⟩ := ihl he.1 (fun range h => hunsigned range (.inl (.inl h))) hlefts
    obtain ⟨g, hg, hright⟩ := ihr he.2.1 (fun range h => hunsigned range (.inl (.inr h))) hrights
    have hjoined := Factor.reads_joined hf hg hopening hmiddle hclose
    have hlimits := Tally.limits_legible he.2.2
      fun l hl => hunsigned _ (.inr (List.mem_map_of_mem hl))
    obtain ⟨j, hj, htree⟩ := Factor.exists_limited hlimits hjoined hothers
    refine ⟨j, by simpa using hj, ?_⟩
    rw [htree, Factor.tree_joined hleft hright]
    simp only [mapTally, Tally.foldl_limits he.2.2]

theorem ofLexemes_of_kinds {r : Registry} {e : Expression} (he : e.Compiled r) (hfilled : e.Filled)
    (hunsigned : ∀ range ∈ e.ranges, range.Unsigned) {lexemes : List Lexeme}
    (h : lexemes.map Lexeme.kind = e.kinds) : ofLexemes {} r lexemes = (.ok e, r) := by
  obtain ⟨f, hf, htree⟩ := exists_factor he hunsigned h
  have hbuild := (Disjunction.one (.one f)).build_eq r
  simp only [Disjunction.operandsFirst, Conjunction.operandsFirst, Disjunction.tree,
    Conjunction.tree, htree] at hbuild
  have hordered : Token.ofLexemes lexemes >>= Token.toPostfix = .ok f.operandsFirst := by
    rw [hf.ofLexemes_eq]
    exact f.phrase.toPostfix
  unfold ofLexemes
  rw [hordered]
  cases hempty : f.operandsFirst with
  | nil =>
    rw [hempty] at hbuild
    cases hbuild
  | cons t ordered =>
    rw [hempty] at hbuild
    show ofPostfix {} r (t :: ordered) = _
    unfold ofPostfix
    rw [hbuild]
    exact congrArg (fun e => (Except.ok e, r)) (hfilled _)

end Expression

/-! ## Patterns -/

namespace Pattern

theorem cut_append {stop place : Nat} {step rest first : List Lexeme}
    {others : List (List Lexeme × Nat)} (hstep : ∀ l ∈ step, l.isSymbol .next = false)
    (h : cut stop rest = (first, place) :: others) :
    cut stop (step ++ rest) = (step ++ first, place) :: others := by
  induction step with
  | nil => exact h
  | cons l step ih =>
    have hl := hstep l (List.mem_cons_self ..)
    rw [List.cons_append, cut, hl, if_neg Bool.false_ne_true,
      ih fun m hm => hstep m (List.mem_cons_of_mem _ hm)]
    rfl

theorem compile_cons {d : Defaults} {r : Registry} {lexemes : List Lexeme}
    {rest : List (List Lexeme × Nat)} {step : Expression} {steps : List Expression}
    (hne : lexemes ≠ []) (hstep : Expression.ofLexemes d r lexemes = (.ok step, r))
    (hrest : compile d r rest = (.ok steps, r)) (stop : Nat) :
    compile d r ((lexemes, stop) :: rest) = (.ok (step :: steps), r) := by
  cases lexemes with
  | nil => exact absurd rfl hne
  | cons l lexemes =>
    rw [compile, hstep]
    · simp only [hrest]
      rfl
    · exact nofun

theorem compile_of_kinds {r : Registry} {steps : List Expression} (hne : steps ≠ [])
    (hsteps : ∀ step ∈ steps, (step.Compiled r ∧ step.Filled) ∧
      ∀ range ∈ step.ranges, range.Unsigned) {lexemes : List Lexeme}
    (h : lexemes.map Lexeme.kind = stepKinds steps) (stop : Nat) :
    compile {} r (cut stop lexemes) = (.ok steps, r) := by
  induction steps generalizing lexemes with
  | nil => exact absurd rfl hne
  | cons step steps ih =>
    obtain ⟨⟨hcompiled, hfilled⟩, hunsigned⟩ := hsteps step (List.mem_cons_self ..)
    have hread : ∀ ls : List Lexeme, ls.map Lexeme.kind = step.kinds →
        ls ≠ [] ∧ Expression.ofLexemes {} r ls = (.ok step, r) ∧
          ∀ l ∈ ls, l.isSymbol .next = false := by
      intro ls hls
      refine ⟨?_, Expression.ofLexemes_of_kinds hcompiled hfilled hunsigned hls, fun l hl => ?_⟩
      · rintro rfl
        cases step <;> cases hls
      · have hmem := List.mem_map_of_mem (f := Lexeme.kind) hl
        rw [hls] at hmem
        exact decide_eq_false (step.inner_kinds _ hmem).1
    cases steps with
    | nil =>
      obtain ⟨hls, hstep, hinner⟩ := hread lexemes h
      have hcut := cut_append hinner (rfl : cut stop [] = _)
      rw [List.append_nil] at hcut
      rw [hcut]
      exact compile_cons hls hstep rfl stop
    | cons next steps =>
      obtain ⟨ls, others, rfl, hls, hothers⟩ := List.map_eq_append_iff.1 h
      obtain ⟨arrow, others, rfl, harrow, hothers⟩ := List.map_eq_cons_iff.1 hothers
      obtain ⟨hls, hstep, hinner⟩ := hread ls hls
      have hnext : cut stop (arrow :: others) = ([], arrow.position) :: cut stop others := by
        rw [cut, Lexeme.isSymbol, harrow]
        rfl
      rw [cut_append hinner hnext, List.append_nil]
      refine compile_cons hls hstep ?_ _
      exact ih (List.cons_ne_nil _ _) (fun e he => hsteps e (List.mem_cons_of_mem _ he)) hothers

theorem cut_ne_nil (stop : Nat) (lexemes : List Lexeme) : cut stop lexemes ≠ [] := by
  fun_induction cut stop lexemes with
  | case1 => exact List.cons_ne_nil _ _
  | case2 => exact List.cons_ne_nil _ _
  | case3 => exact List.cons_ne_nil _ _
  | case4 => exact List.cons_ne_nil _ _

theorem compile_ne_nil {d : Defaults} {registry : Registry} {cuts : List (List Lexeme × Nat)}
    {steps : List Expression} (hne : cuts ≠ [])
    (h : (compile d registry cuts).1 = .ok steps) : steps ≠ [] := by
  unfold compile at h
  split at h
  · exact absurd rfl hne
  · simp at h
  · split at h
    · simp at h
    · obtain ⟨others, -, rfl⟩ := exists_of_map_eq_ok h
      exact List.cons_ne_nil _ _

theorem parse_of_lexemes {d : Defaults} {registry final : Registry} {text : String}
    {body after : List Lexeme} {result : Lexeme} {steps : List Expression}
    (h : Lexeme.ofText text = body ++ result :: after) (hresult : result.isSymbol .result = true)
    (hbody : ∀ l ∈ body, l.isSymbol .result = false)
    (hafter : ∀ l ∈ after, l.isSymbol .result = false)
    (hsteps : compile d registry (cut result.position body) = (.ok steps, final)) :
    parse d registry text = (.ok ⟨nameAfter result text.toList, steps⟩, final) := by
  have hfilter : (Lexeme.ofText text).filter (·.isSymbol .result) = [result] := by
    rw [h, List.filter_append, List.filter_cons, if_pos hresult,
      List.filter_eq_nil_iff.2 fun l hl => by simp [hbody l hl],
      List.filter_eq_nil_iff.2 fun l hl => by simp [hafter l hl], List.nil_append]
  have htake : (Lexeme.ofText text).takeWhile (! ·.isSymbol .result) = body := by
    rw [h, List.takeWhile_append_of_pos fun l hl => by simp [hbody l hl],
      List.takeWhile_cons_of_neg (by simp [hresult]), List.append_nil]
  unfold parse
  simp only [hfilter, htake, hsteps]
  rfl

/-- The text of a pattern that was read is read as the same steps, and meets no new name. The sign
of a negative zero would be lost, or not be understood. -/
theorem parse_text {d : Defaults} {registry final : Registry} {text : String} {p : Pattern}
    (hparse : parse d registry text = (.ok p, final))
    (hunsigned : ∀ step ∈ p.steps, ∀ range ∈ step.ranges, range.Unsigned) :
    ∃ q, parse {} final p.text = (.ok q, final) ∧ q.steps = p.steps := by
  have hok : (parse d registry text).1 = .ok p := by rw [hparse]
  have hcompiled := parse_compiled hok
  rw [hparse] at hcompiled
  have hne : p.steps ≠ [] := by
    obtain ⟨stop, hsteps, -⟩ := parse_eq_ok hok
    exact compile_ne_nil (cut_ne_nil _ _) hsteps
  obtain ⟨name, hname, hkinds⟩ := kinds_write
    (fun step hstep => ⟨(hcompiled step hstep).1, hunsigned step hstep⟩) hne
  have hlexemes : (Lexeme.ofText p.text).map Lexeme.kind =
      stepKinds p.steps ++ .symbol .result :: name := by
    rw [← hkinds, ← Lexeme.kind_ofChars, Lexeme.ofText, Pattern.text, String.toList_ofList]
  -- The lexemes in front of the only `=>` are those of the steps.
  obtain ⟨body, others, hsplit, hbody, hothers⟩ := List.map_eq_append_iff.1 hlexemes
  obtain ⟨result, after, rfl, hresult, hafter⟩ := List.map_eq_cons_iff.1 hothers
  have hnone : ∀ ls : List Lexeme, .symbol .result ∉ ls.map Lexeme.kind →
      ∀ l ∈ ls, l.isSymbol .result = false := by
    intro ls hls l hl
    refine decide_eq_false fun hkind => hls ?_
    rw [← hkind]
    exact List.mem_map_of_mem hl
  have hsteps := compile_of_kinds hne
    (fun step hstep => ⟨hcompiled step hstep, hunsigned step hstep⟩) hbody result.position
  refine ⟨_, parse_of_lexemes hsplit (decide_eq_true hresult) (hnone body ?_) (hnone after ?_)
    hsteps, rfl⟩
  · rw [hbody]
    exact result_not_mem_stepKinds _
  · rw [hafter]
    exact hname

/-- A bracket and an arrow inside a name, and a default without upper end. -/
theorem parse_text_escaped : ∃ (d : Defaults) (p q : Pattern) (r : Registry),
    parse d .empty "(A[2:]\x7bs2.5\x7d & b\\->\\()[:2] -> C => P" = (.ok p, r) ∧
      p.text = "(A\x7bs0:2.5\x7d[2:] & b\\->\\(\x7bs0:\x7d)[0:2] -> C\x7bs0:\x7d[1] => P" ∧
        parse {} r p.text = (.ok q, r) ∧ q.steps = p.steps := by
  obtain ⟨d, p, r, hp, htext, hunsigned⟩ : ∃ (d : Defaults) (p : Pattern) (r : Registry),
      parse d .empty "(A[2:]\x7bs2.5\x7d & b\\->\\()[:2] -> C => P" = (.ok p, r) ∧
        p.text = "(A\x7bs0:2.5\x7d[2:] & b\\->\\(\x7bs0:\x7d)[0:2] -> C\x7bs0:\x7d[1] => P" ∧
          ∀ step ∈ p.steps, ∀ range ∈ step.ranges, range.Unsigned :=
    ⟨⟨.one, ⟨0, Decimal.infinity, by decide, by decide, by decide⟩⟩, _, _, rfl,
      by decide +kernel, by decide +kernel⟩
  obtain ⟨q, hq, hsteps⟩ := parse_text hp hunsigned
  exact ⟨d, p, q, r, hp, htext, hq, hsteps⟩

end Pattern

end TimedPattern
