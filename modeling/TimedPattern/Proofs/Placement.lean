import TimedPattern.Proofs.Compiled
import TimedPattern.Proofs.Grammar

/-!
# What is accepted

Ordering checks brackets and limits, and putting together counts operands. Neither looks at where an
operator stands, so one fault can make up for another, as in `A (B) &`.
-/

namespace TimedPattern

namespace Token

/-! ## Places -/

/-- Operands and operators take turns. An operand is due at the start, behind an operator and behind
an opening bracket. Behind an operand there may be limits, closing brackets and an operator. -/
def placed (afterOperand : Bool) : List Token → Bool
  | [] => afterOperand
  | t :: rest =>
    match t.kind with
    | .behavior _ => ! afterOperand && placed true rest
    | .groupOpen => ! afterOperand && placed false rest
    | .groupClose => afterOperand && placed true rest
    | .operator _ => afterOperand && placed false rest
    | .occurrences _ | .timing _ => afterOperand && placed true rest

/-! ## Brackets -/

/-- The brackets close as many groups as they open, and as are open already, each after it is
opened. -/
def balanced (depth : Nat) : List Token → Bool
  | [] => depth == 0
  | t :: rest =>
    match t.kind with
    | .groupOpen => balanced (depth + 1) rest
    | .groupClose => 0 < depth && balanced (depth - 1) rest
    | _ => balanced depth rest

/-- The groups that are open while operators wait. -/
def depth (waiting : List Token) : Nat := waiting.countP isGroupOpen

theorem depth_dropWhile {p : Token → Bool} {waiting : List Token}
    (hp : ∀ t, p t = true → t.isGroupOpen = false) :
    depth (waiting.dropWhile p) = depth waiting := by
  induction waiting with
  | nil => rfl
  | cons t rest ih =>
    cases ht : p t with
    | false => rw [List.dropWhile_cons_of_neg (by simp [ht])]
    | true =>
      rw [List.dropWhile_cons_of_pos ht, ih]
      simp [depth, hp t ht]

theorem depth_release {precedence : Nat} {waiting before staying : List Token} {t : Token}
    (h : release precedence waiting = (before, staying)) (ht : t.isGroupOpen = false) :
    depth (t :: staying) = depth waiting := by
  unfold release at h
  rw [List.span_eq_takeWhile_dropWhile, Prod.mk.injEq] at h
  obtain ⟨-, rfl⟩ := h
  have hstaying : depth (t :: waiting.dropWhile fun top =>
      ! top.isGroupOpen && precedence ≤ top.precedence) = depth (waiting.dropWhile fun top =>
      ! top.isGroupOpen && precedence ≤ top.precedence) := by
    simp [depth, ht]
  rw [hstaying]
  apply depth_dropWhile
  intro top htop
  simp only [Bool.and_eq_true, Bool.not_eq_true'] at htop
  exact htop.1

theorem depth_endGroup? {waiting group below : List Token}
    (h : endGroup? waiting = some (group, below)) : depth waiting = depth below + 1 := by
  unfold endGroup? at h
  rw [List.span_eq_takeWhile_dropWhile] at h
  split at h
  · rename_i top rest hspan
    simp only [Prod.mk.injEq, Option.some.injEq] at h hspan
    obtain ⟨-, rfl⟩ := h
    have htop : top.isGroupOpen = true := by
      have hhead := List.head?_dropWhile_not (! ·.isGroupOpen) waiting
      rw [hspan.2] at hhead
      simpa using hhead
    rw [← depth_dropWhile (p := (! ·.isGroupOpen)) (by simp), hspan.2]
    simp [depth, htop]
  · simp at h

theorem depth_of_drain {waiting ordered : List Token} (h : drain waiting = .ok ordered) :
    depth waiting = 0 := by
  fun_induction drain waiting generalizing ordered with
  | case1 => rfl
  | case2 top rest hopen => cases h
  | case3 top rest hopen ih =>
    obtain ⟨others, hrest, -⟩ := exists_of_map_eq_ok h
    simpa [depth, hopen] using ih hrest

theorem balanced_of_order {waiting tokens ordered : List Token} {afterOperand : Bool}
    (h : order waiting afterOperand tokens = .ok ordered) :
    balanced (depth waiting) tokens = true := by
  fun_induction order waiting afterOperand tokens generalizing ordered with
  | case1 waiting afterOperand => simp [balanced, depth_of_drain h]
  | case2 waiting afterOperand t rest name hkind ih =>
    obtain ⟨others, hrest, -⟩ := exists_of_map_eq_ok h
    simpa [balanced, hkind] using ih hrest
  | case3 waiting afterOperand t rest hkind ih =>
    have hopen : t.isGroupOpen = true := by simp [isGroupOpen, hkind]
    have hdepth : depth (t :: waiting) = depth waiting + 1 := by simp [depth, hopen]
    simpa [balanced, hkind, hdepth] using ih h
  | case4 waiting afterOperand t rest hkind group below hend ih =>
    obtain ⟨others, hrest, -⟩ := exists_of_map_eq_ok h
    simpa [balanced, hkind, depth_endGroup? hend] using ih hrest
  | case5 => cases h
  | case6 waiting afterOperand t rest op hkind before staying hrelease ih =>
    obtain ⟨others, hrest, -⟩ := exists_of_map_eq_ok h
    have hdepth := depth_release hrelease (t := t) (by simp [isGroupOpen, hkind])
    simpa [balanced, hkind, hdepth] using ih hrest
  | case7 waiting t rest range hkind before staying hrelease ih =>
    obtain ⟨others, hrest, -⟩ := exists_of_map_eq_ok h
    have hdepth := depth_release hrelease (t := t) (by simp [isGroupOpen, hkind])
    simpa [balanced, hkind, hdepth] using ih hrest
  | case8 => cases h
  | case9 waiting t rest range hkind before staying hrelease ih =>
    obtain ⟨others, hrest, -⟩ := exists_of_map_eq_ok h
    have hdepth := depth_release hrelease (t := t) (by simp [isGroupOpen, hkind])
    simpa [balanced, hkind, hdepth] using ih hrest
  | case10 => cases h

/-! ## Sentences -/

/-- What stands in front of a factor in its group: alternatives with a `|` behind them, and then
factors with an `&` behind them. -/
structure Pending where
  alternatives : Option (Disjunction × Nat) := none
  factors : Option (Conjunction × Nat) := none

namespace Pending

def alternativeTokens : Option (Disjunction × Nat) → List Token
  | none => []
  | some (d, position) => d.tokens ++ [⟨.operator .or, position⟩]

def factorTokens : Option (Conjunction × Nat) → List Token
  | none => []
  | some (c, position) => c.tokens ++ [⟨.operator .and, position⟩]

def tokens (p : Pending) : List Token := alternativeTokens p.alternatives ++ factorTokens p.factors

def conjunction (p : Pending) (f : Factor) : Conjunction :=
  match p.factors with
  | none => .one f
  | some (c, position) => .and c position f

def disjunction (p : Pending) (f : Factor) : Disjunction :=
  match p.alternatives with
  | none => .one (p.conjunction f)
  | some (d, position) => .or d position (p.conjunction f)

theorem tokens_conjunction (p : Pending) (f : Factor) :
    (p.conjunction f).tokens = factorTokens p.factors ++ f.tokens := by
  unfold conjunction
  cases p.factors with
  | none => rfl
  | some c => simp [factorTokens, Conjunction.tokens]

theorem tokens_disjunction (p : Pending) (f : Factor) :
    (p.disjunction f).tokens = p.tokens ++ f.tokens := by
  unfold disjunction tokens
  cases p.alternatives with
  | none => simp [alternativeTokens, Disjunction.tokens, tokens_conjunction]
  | some d => simp [alternativeTokens, Disjunction.tokens, tokens_conjunction]

/-- What is pending once an operator follows the factor. -/
def push (p : Pending) (f : Factor) (position : Nat) : Operator → Pending
  | .and => ⟨p.alternatives, some (p.conjunction f, position)⟩
  | .or => ⟨some (p.disjunction f, position), none⟩

theorem tokens_push (p : Pending) (f : Factor) (position : Nat) (op : Operator) :
    (p.push f position op).tokens = p.tokens ++ f.tokens ++ [⟨.operator op, position⟩] := by
  cases op with
  | and => simp [push, tokens, factorTokens, tokens_conjunction]
  | or => simp [push, tokens, alternativeTokens, factorTokens, tokens_disjunction]

/-- What is pending in the groups around the innermost one, each with the place of the bracket that
follows it. -/
def around : List (Pending × Nat) → List Token
  | [] => []
  | (p, position) :: outer => around outer ++ p.tokens ++ [⟨.groupOpen, position⟩]

end Pending

theorem exists_disjunction {tokens : List Token} {p : Pending} {outer : List (Pending × Nat)}
    {f : Option Factor} (hplaced : placed f.isSome tokens = true)
    (hbalanced : balanced outer.length tokens = true) :
    ∃ d : Disjunction, d.tokens =
      Pending.around outer ++ p.tokens ++ f.elim [] Factor.tokens ++ tokens := by
  induction tokens generalizing p outer f with
  | nil =>
    obtain ⟨f, rfl⟩ := Option.isSome_iff_exists.1 hplaced
    obtain rfl : outer = [] := by simpa [balanced] using hbalanced
    exact ⟨p.disjunction f, by simp [Pending.around, p.tokens_disjunction]⟩
  | cons t rest ih =>
    obtain ⟨kind, position⟩ := t
    unfold placed at hplaced
    unfold balanced at hbalanced
    cases kind with
    | behavior name =>
      obtain ⟨hf, hplaced⟩ := Bool.and_eq_true_iff.1 hplaced
      obtain rfl : f = none := by simpa using hf
      obtain ⟨d, hd⟩ := @ih p outer (some (.behavior name position)) hplaced hbalanced
      exact ⟨d, by simpa [Factor.tokens] using hd⟩
    -- What is read in front of a group waits outside until its bracket closes.
    | groupOpen =>
      obtain ⟨hf, hplaced⟩ := Bool.and_eq_true_iff.1 hplaced
      obtain rfl : f = none := by simpa using hf
      obtain ⟨d, hd⟩ := @ih {} ((p, position) :: outer) none hplaced hbalanced
      exact ⟨d, by simpa [Pending.around, Pending.tokens, Pending.alternativeTokens,
        Pending.factorTokens] using hd⟩
    | groupClose =>
      obtain ⟨hf, hplaced⟩ := Bool.and_eq_true_iff.1 hplaced
      obtain ⟨f, rfl⟩ := Option.isSome_iff_exists.1 hf
      cases outer with
      | nil => simp at hbalanced
      | cons group outer =>
        obtain ⟨before, opened⟩ := group
        obtain ⟨d, hd⟩ :=
          @ih before outer (some (.group opened (p.disjunction f) position)) hplaced
            (by simpa using hbalanced)
        exact ⟨d, by simpa [Pending.around, Factor.tokens, p.tokens_disjunction] using hd⟩
    | operator op =>
      obtain ⟨hf, hplaced⟩ := Bool.and_eq_true_iff.1 hplaced
      obtain ⟨f, rfl⟩ := Option.isSome_iff_exists.1 hf
      obtain ⟨d, hd⟩ := @ih (p.push f position op) outer none hplaced hbalanced
      exact ⟨d, by simpa [p.tokens_push] using hd⟩
    | occurrences range =>
      obtain ⟨hf, hplaced⟩ := Bool.and_eq_true_iff.1 hplaced
      obtain ⟨f, rfl⟩ := Option.isSome_iff_exists.1 hf
      obtain ⟨d, hd⟩ :=
        @ih p outer (some (.limited f (.occurrences range) position)) hplaced hbalanced
      exact ⟨d, by simpa [Factor.tokens, Limit.kind] using hd⟩
    | timing range =>
      obtain ⟨hf, hplaced⟩ := Bool.and_eq_true_iff.1 hplaced
      obtain ⟨f, rfl⟩ := Option.isSome_iff_exists.1 hf
      obtain ⟨d, hd⟩ := @ih p outer (some (.limited f (.timing range) position)) hplaced hbalanced
      exact ⟨d, by simpa [Factor.tokens, Limit.kind] using hd⟩

end Token

/-! ## Sentences are placed well -/

mutual

theorem Disjunction.placed_tokens (d : Disjunction) (rest : List Token) :
    Token.placed false (d.tokens ++ rest) = Token.placed true rest := by
  cases d with
  | one only => exact only.placed_tokens rest
  | or left position right =>
    rw [Disjunction.tokens, List.append_assoc, left.placed_tokens]
    exact right.placed_tokens rest

theorem Conjunction.placed_tokens (c : Conjunction) (rest : List Token) :
    Token.placed false (c.tokens ++ rest) = Token.placed true rest := by
  cases c with
  | one only => exact only.placed_tokens rest
  | and left position right =>
    rw [Conjunction.tokens, List.append_assoc, left.placed_tokens]
    exact right.placed_tokens rest

theorem Factor.placed_tokens (f : Factor) (rest : List Token) :
    Token.placed false (f.tokens ++ rest) = Token.placed true rest := by
  cases f with
  | behavior name position => rfl
  | group opened inner closed =>
    rw [Factor.tokens, List.cons_append, List.append_assoc]
    exact inner.placed_tokens _
  | limited inner limit position =>
    rw [Factor.tokens, List.append_assoc, inner.placed_tokens]
    cases limit <;> rfl

end

/-- The sentences of the grammar are what is accepted of the tokens in which operators and operands
take turns. -/
theorem Disjunction.exists_iff_accepted (d : Defaults) (r : Registry) (tokens : List Token) :
    (∃ s : Disjunction, s.tokens = tokens) ↔
      Token.placed false tokens = true ∧ ∃ ordered e, Token.toPostfix tokens = .ok ordered ∧
        (Expression.ofPostfix d r ordered).1 = .ok e := by
  constructor
  · rintro ⟨s, rfl⟩
    refine ⟨?_, s.operandsFirst, (s.tree r).1.withDefaults d, s.phrase.toPostfix, ?_⟩
    · rw [← List.append_nil s.tokens, s.placed_tokens]
      rfl
    · unfold Expression.ofPostfix
      rw [s.build_eq r]
      rfl
  · rintro ⟨hplaced, ordered, e, hordered, -⟩
    obtain ⟨s, hs⟩ := @Token.exists_disjunction tokens {} [] none hplaced
      (Token.balanced_of_order hordered)
    exact ⟨s, hs⟩

/-- Without an operator between its operands, and with one behind them, a text is accepted. -/
theorem Disjunction.accepted_without_sentence : ∃ tokens ordered e,
    Token.ofLexemes (Lexeme.ofText "A (B) &") = .ok tokens ∧
      Token.toPostfix tokens = .ok ordered ∧
        (Expression.ofPostfix {} .empty ordered).1 = .ok e ∧
          ∀ s : Disjunction, s.tokens ≠ tokens := by
  refine ⟨_, _, _, rfl, rfl, rfl, fun s hs => ?_⟩
  have hplaced := s.placed_tokens []
  rw [List.append_nil, hs] at hplaced
  exact absurd hplaced (by decide)

end TimedPattern
