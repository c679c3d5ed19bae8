import TimedPattern.Proofs.FloatZeros
import TimedPattern.Proofs.Registries
import TimedPattern.Proofs.RoundTrip

/-!
# Within a time

A single number stands for the window from zero up to it. The rule looks at the width of a range,
which is NaN if both ends are infinite, so an infinite number stands for itself alone.
-/

open List (Forall₂)

namespace TimedPattern

/-! ## Ranges -/

namespace Range

variable {n : Float}

def moment (n : Float) (hn : 0 ≤ n) : Range := ⟨n, n, hn, hn, le_self (isNaN_of_le hn).2⟩

def upTo (n : Float) (hn : 0 ≤ n) : Range := ⟨0, n, zero.zero_le_minimum, hn, hn⟩

instance : ReflBEq Range := ⟨fun {r} => by
  show (r.minimum == r.minimum && r.maximum == r.maximum) = true
  rw [beq_self (isNaN_of_le r.zero_le_minimum).2, beq_self (isNaN_of_le r.zero_le_maximum).2]
  rfl⟩

theorem asWindow_upTo (hn : 0 ≤ n) : (upTo n hn).asWindow = upTo n hn := by
  unfold asWindow
  split
  · rfl
  · rfl

theorem width_moment (hn : 0 ≤ n) : ((moment n hn).width == 0) = true ↔ n.isInf = false := by
  have hnan := (isNaN_of_le hn).2
  show (n - n == 0) = true ↔ _
  rw [beq_zero_iff]
  cases hinf : n.isInf with
  | false => simp [datum_sub_self hnan hinf]
  | true => simp [datum_sub_self_of_not_finite (.inr hinf)]

theorem moment_beq_upTo (hn : 0 ≤ n) : (moment n hn == upTo n hn) = (n == 0) := by
  show (n == 0 && n == n) = (n == 0)
  rw [beq_self (isNaN_of_le hn).2, Bool.and_true]

theorem asWindow_moment (hn : 0 ≤ n) : (moment n hn).asWindow =
    if n.isInf = false ∧ ¬ n == 0 then upTo n hn else moment n hn := by
  unfold asWindow
  simp only [width_moment hn]
  rfl

theorem asWindow_moment_beq (hn : 0 ≤ n) :
    ((moment n hn).asWindow == upTo n hn) = true ↔ n.isInf = false := by
  rw [asWindow_moment]
  split
  · rename_i h
    exact iff_of_true BEq.rfl h.1
  · rename_i h
    rw [moment_beq_upTo]
    refine ⟨isInf_of_beq_zero, fun hinf => ?_⟩
    by_contra hzero
    exact h ⟨hinf, hzero⟩

end Range

/-! ## Regions -/

namespace Token

variable {n : Float} {t : String}

theorem reads_moment (hn : 0 ≤ n) (ht : Decimal.read? t.toList = some n)
    (opened mark place closed : Nat) :
    Reads [⟨.symbol .timingOpen, opened⟩, ⟨.symbol (.flag 's'), mark⟩, ⟨.text t, place⟩,
        ⟨.symbol .timingClose, closed⟩]
      [⟨.timing (Range.moment n hn).asWindow, opened⟩] := by
  have hinner : Forall₂ RegionItem.SpelledBy [.flag 's', .number n]
      [⟨.symbol (.flag 's'), mark⟩, ⟨.text t, place⟩] := .cons rfl (.cons ⟨t, rfl, ht⟩ .nil)
  have hrange : Range.exactly n = .ok (Range.moment n hn) := (Range.moment n hn).between_bounds
  refine reads_region rfl hinner rfl ?_
  simp only [Region.token, Region.readTiming, Region.range?, hrange]
  rfl

theorem reads_upTo (hn : 0 ≤ n) (ht : Decimal.read? t.toList = some n)
    (opened mark start colon place closed : Nat) :
    Reads [⟨.symbol .timingOpen, opened⟩, ⟨.symbol (.flag 's'), mark⟩, ⟨.text "0", start⟩,
        ⟨.symbol (.flag ':'), colon⟩, ⟨.text t, place⟩, ⟨.symbol .timingClose, closed⟩]
      [⟨.timing (Range.upTo n hn), opened⟩] := by
  have hzero : Decimal.read? "0".toList = some 0 := by rfl
  have hinner : Forall₂ RegionItem.SpelledBy [.flag 's', .number 0, .flag ':', .number n]
      [⟨.symbol (.flag 's'), mark⟩, ⟨.text "0", start⟩, ⟨.symbol (.flag ':'), colon⟩,
        ⟨.text t, place⟩] :=
    .cons rfl (.cons ⟨"0", rfl, hzero⟩ (.cons rfl (.cons ⟨t, rfl, ht⟩ .nil)))
  have hrange : Range.between 0 n = .ok (Range.upTo n hn) := (Range.upTo n hn).between_bounds
  refine reads_region rfl hinner rfl ?_
  simp only [Region.token, Region.readTiming, Region.range?, hrange, Region.place, Except.map,
    Range.asWindow_upTo]

end Token

/-! ## Defaults -/

instance : ReflBEq Tally := ⟨fun {t} => by
  show (t.occurrences == t.occurrences && (t.timing == t.timing && t.matched == t.matched)) = true
  simp only [BEq.rfl, Bool.and_self]⟩

theorem Tally.limitTiming_beq (t : Tally) {range other : Range} (h : (range == other) = true) :
    (t.limitTiming range == t.limitTiming other) = true := by
  obtain ⟨occurrences, timing, matched⟩ := t
  cases timing with
  | some window => exact BEq.rfl
  | none =>
    show (occurrences == occurrences && (range == other && matched == matched)) = true
    simp only [BEq.rfl, h, Bool.and_self]

namespace Expression

variable {d d' : Defaults}

theorem leaf_beq {t t' : Tally} (behavior : BehaviorId) (name : String) (h : (t == t') = true) :
    (leaf behavior name t == leaf behavior name t') = true := by
  show (behavior == behavior && (name == name && t == t')) = true
  simp only [BEq.rfl, h, Bool.and_self]

theorem conditional_beq {left left' right right' : Expression} (op : Operator) (t : Tally)
    (hleft : (left == left') = true) (hright : (right == right') = true) :
    (conditional op left right t == conditional op left' right' t) = true := by
  show (op == op && (left == left' && (right == right' && t == t))) = true
  simp only [BEq.rfl, hleft, hright, Bool.and_self]

theorem fill_beq (hcount : d.occurrences = d'.occurrences) (htime : (d.timing == d'.timing) = true)
    (e : Expression) (countOpen timeOpen : Bool) :
    (e.fill d countOpen timeOpen == e.fill d' countOpen timeOpen) = true := by
  induction e generalizing countOpen timeOpen with
  | leaf behavior name t =>
    apply leaf_beq
    rw [hcount]
    cases timeOpen with
    | false => exact BEq.rfl
    | true => exact Tally.limitTiming_beq _ htime
  | conditional op left right t ihl ihr => exact conditional_beq op t (ihl _ _) (ihr _ _)

theorem exists_withDefaults_ofLexemes (registry : Registry) (lexemes : List Lexeme) :
    ∃ (result : Except PatternError Expression) (grown : Registry), ∀ d,
      ofLexemes d registry lexemes = (result.map (·.withDefaults d), grown) := by
  unfold ofLexemes
  cases Token.ofLexemes lexemes >>= Token.toPostfix with
  | error e => exact ⟨.error e, registry, fun d => rfl⟩
  | ok tokens =>
    cases tokens with
    | nil => exact ⟨.error _, registry, fun d => rfl⟩
    | cons t rest => exact ⟨_, _, fun d => rfl⟩

end Expression

namespace Pattern

def withDefaults (p : Pattern) (d : Defaults) : Pattern :=
  { p with steps := p.steps.map (·.withDefaults d) }

theorem exists_withDefaults_compile (registry : Registry) (cuts : List (List Lexeme × Nat)) :
    ∃ (result : Except PatternError (List Expression)) (grown : Registry), ∀ d,
      compile d registry cuts = (result.map (List.map (·.withDefaults d)), grown) := by
  induction cuts generalizing registry with
  | nil => exact ⟨.ok [], registry, fun d => rfl⟩
  | cons step rest ih =>
    obtain ⟨lexemes, stop⟩ := step
    cases lexemes with
    | nil => exact ⟨.error ⟨.emptyStep, stop⟩, registry, fun d => rfl⟩
    | cons l lexemes =>
      obtain ⟨result, grown, hstep⟩ :=
        Expression.exists_withDefaults_ofLexemes registry (l :: lexemes)
      cases result with
      | error e =>
        refine ⟨.error e, grown, fun d => ?_⟩
        rw [compile, hstep]
        · rfl
        · simp
      | ok e =>
        obtain ⟨others, final, hrest⟩ := ih grown
        refine ⟨others.map (e :: ·), final, fun d => ?_⟩
        rw [compile, hstep]
        · simp only [Except.map, hrest]
          cases others <;> rfl
        · simp

theorem exists_withDefaults_parse (registry : Registry) (text : String) :
    ∃ (result : Except PatternError Pattern) (grown : Registry), ∀ d,
      parse d registry text = (result.map (withDefaults · d), grown) := by
  unfold parse
  dsimp only
  split
  · exact ⟨.error _, registry, fun d => rfl⟩
  · rename_i result _
    obtain ⟨steps, grown, hsteps⟩ := exists_withDefaults_compile registry
      (cut result.position ((Lexeme.ofText text).takeWhile (! ·.isSymbol .result)))
    refine ⟨steps.map fun steps => ⟨nameAfter result text.toList, steps⟩, grown, fun d => ?_⟩
    rw [hsteps]
    cases steps <;> rfl
  · exact ⟨.error _, registry, fun d => rfl⟩

theorem withDefaults_beq {d d' : Defaults} (hcount : d.occurrences = d'.occurrences)
    (htime : (d.timing.asWindow == d'.timing.asWindow) = true) (p : Pattern) :
    (p.withDefaults d == p.withDefaults d') = true := by
  have hsteps : (p.steps.map (·.withDefaults d) == p.steps.map (·.withDefaults d')) = true := by
    induction p.steps with
    | nil => rfl
    | cons step rest ih =>
      rw [List.map_cons, List.map_cons, List.cons_beq_cons, ih, Bool.and_true]
      have hfill := @Expression.fill_beq { d with timing := d.timing.asWindow }
        { d' with timing := d'.timing.asWindow }
      exact hfill hcount htime step true true
  show (p.name == p.name && _) = true
  rw [BEq.rfl, Bool.true_and]
  exact hsteps

theorem parse_beq {d d' : Defaults} (hcount : d.occurrences = d'.occurrences)
    (htime : (d.timing.asWindow == d'.timing.asWindow) = true) (registry : Registry)
    (text : String) :
    SameResult (fun p q => (p == q) = true) (parse d registry text).1 (parse d' registry text).1 ∧
      (parse d registry text).2 = (parse d' registry text).2 := by
  obtain ⟨result, grown, hparse⟩ := exists_withDefaults_parse registry text
  rw [hparse d, hparse d']
  refine ⟨?_, rfl⟩
  cases result with
  | error e => exact .error e
  | ok p => exact .ok (withDefaults_beq hcount htime p)

end Pattern

/-! ## Within -/

theorem Expression.Compiled.asWindow {r : Registry} {e : Expression} (h : e.Compiled r)
    (first : Nat) : ∀ node ∈ e.nodesFrom first, ∀ window, node.tally.timing = some window →
      window.asWindow = window := by
  induction e generalizing first with
  | leaf behavior name t =>
    rintro node hnode
    obtain rfl := List.mem_singleton.1 hnode
    exact h.2.2.window
  | conditional op left right t ihl ihr =>
    intro node hnode
    rw [nodesFrom, List.mem_append, List.mem_append, List.mem_singleton] at hnode
    rcases hnode with (hnode | hnode) | rfl
    · exact ihl h.1 _ node hnode
    · exact ihr h.2.1 _ node hnode
    · exact h.2.2.window

/-- What a single number means as a limit of time, by itself and next to the window from zero. -/
structure Within (n : Float) (hn : 0 ≤ n) : Prop where
  single : ∀ t, Decimal.read? t.toList = some n → ∀ opened mark place closed,
    Token.Reads [⟨.symbol .timingOpen, opened⟩, ⟨.symbol (.flag 's'), mark⟩, ⟨.text t, place⟩,
        ⟨.symbol .timingClose, closed⟩]
      [⟨.timing (Range.moment n hn).asWindow, opened⟩]
  fromZero : ∀ t, Decimal.read? t.toList = some n → ∀ opened mark start colon place closed,
    Token.Reads [⟨.symbol .timingOpen, opened⟩, ⟨.symbol (.flag 's'), mark⟩, ⟨.text "0", start⟩,
        ⟨.symbol (.flag ':'), colon⟩, ⟨.text t, place⟩, ⟨.symbol .timingClose, closed⟩]
      [⟨.timing (Range.upTo n hn), opened⟩]
  window : (Range.moment n hn).asWindow =
    if n.isInf = false ∧ ¬ n == 0 then Range.upTo n hn else Range.moment n hn
  /-- The two windows of zero agree anyway, and only an infinite number makes a difference. -/
  same : ((Range.moment n hn).asWindow == Range.upTo n hn) = true ↔ n.isInf = false
  defaults : n.isInf = false → ∀ occurrences registry text,
    SameResult (fun p q => (p == q) = true)
      (Pattern.parse ⟨occurrences, Range.moment n hn⟩ registry text).1
      (Pattern.parse ⟨occurrences, Range.upTo n hn⟩ registry text).1 ∧
    (Pattern.parse ⟨occurrences, Range.moment n hn⟩ registry text).2 =
      (Pattern.parse ⟨occurrences, Range.upTo n hn⟩ registry text).2

namespace Pattern

/-- A finite number means "within" in a region and as a default. The windows of a pattern that was
read stay as they are when they are read as windows once more. -/
theorem within_windows {n : Float} (hn : 0 ≤ n) (d : Defaults) (registry : Registry)
    (text : String) : Within n hn ∧
      ∀ p, (parse d registry text).1 = .ok p → ∀ step ∈ p.steps, ∀ node ∈ step.nodes,
        ∀ window, node.tally.timing = some window → window.asWindow = window := by
  refine ⟨⟨?_, ?_, ?_, ?_, ?_⟩, ?_⟩
  · exact fun t ht => Token.reads_moment hn ht
  · exact fun t ht => Token.reads_upTo hn ht
  · exact Range.asWindow_moment hn
  · exact Range.asWindow_moment_beq hn
  · intro hfinite occurrences registry text
    apply parse_beq
    · rfl
    · dsimp only
      rw [Range.asWindow_upTo]
      exact (Range.asWindow_moment_beq hn).2 hfinite
  · intro p hp step hstep
    exact (parse_compiled hp step hstep).1.asWindow 0

theorem within_windows_half : (0 : Float) ≤ 2.5 ∧ (2.5 : Float).isInf = false ∧
    Decimal.read? "2.5".toList = some 2.5 ∧ Within 2.5 (by decide) ∧
      ∃ p, (parse {} .empty "A\x7bs 2.5\x7d => P").1 = .ok p ∧
        ∀ step ∈ p.steps, ∀ node ∈ step.nodes, ∀ window, node.tally.timing = some window →
          window.asWindow = window := by
  obtain ⟨hwithin, hstable⟩ :=
    within_windows (by decide : (0 : Float) ≤ 2.5) {} .empty "A\x7bs 2.5\x7d => P"
  exact ⟨by decide, by decide, rfl, hwithin, _, rfl, hstable _ rfl⟩

/-- An infinite number stands for itself alone, in a region as well as by default. -/
theorem within_windows_infinite : ∃ p q p' q' r,
    parse {} .empty "A\x7bs inf\x7d => P" = (.ok p, r) ∧
    parse {} .empty "A\x7bs 0:inf\x7d => P" = (.ok q, r) ∧ (p == q) = false ∧
    parse ⟨.one, ⟨Decimal.infinity, Decimal.infinity, by decide, by decide, by decide⟩⟩ .empty
      "A => P" = (.ok p', r) ∧
    parse ⟨.one, ⟨0, Decimal.infinity, by decide, by decide, by decide⟩⟩ .empty
      "A => P" = (.ok q', r) ∧ (p' == q') = false := by
  exact ⟨_, _, _, _, _, rfl, rfl, by decide +kernel, rfl, rfl, by decide +kernel⟩

end Pattern

end TimedPattern
