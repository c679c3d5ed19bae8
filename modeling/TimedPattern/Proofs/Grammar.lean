import Mathlib.Data.List.TakeDrop
import TimedPattern.Proofs.Arena
import TimedPattern.Proofs.Grammar.Spec
import TimedPattern.Token.Postfix

/-! # Reading the grammar -/

namespace TimedPattern

/-! ## Operands first -/

namespace Token

/-- No waiting operator would be released by a token of some precedence. -/
def Holds (precedence : Nat) (waiting : List Token) : Prop :=
  ∀ top ∈ waiting.head?, top.isGroupOpen = true ∨ top.precedence < precedence

/-- Operators that a token of some precedence releases. -/
def Yields (precedence : Nat) (pending : List Token) : Prop :=
  ∀ t ∈ pending, t.isGroupOpen = false ∧ precedence ≤ t.precedence

theorem Holds.mono {low high : Nat} {waiting : List Token} (h : Holds low waiting)
    (hle : low ≤ high) : Holds high waiting :=
  fun top htop => (h top htop).imp_right (by omega)

theorem Yields.mono {low high : Nat} {pending : List Token} (h : Yields high pending)
    (hle : low ≤ high) : Yields low pending :=
  fun t ht => ⟨(h t ht).1, Nat.le_trans hle (h t ht).2⟩

theorem holds_nil (precedence : Nat) : Holds precedence [] := by
  intro top htop
  simp at htop

theorem holds_cons {precedence : Nat} {t : Token} {waiting : List Token}
    (h : t.isGroupOpen = true ∨ t.precedence < precedence) : Holds precedence (t :: waiting) := by
  rintro top ⟨⟩
  exact h

theorem span_append {p : Token → Bool} {pending waiting : List Token}
    (hpending : ∀ t ∈ pending, p t = true) (hwaiting : ∀ t ∈ waiting.head?, p t = false) :
    (pending ++ waiting).span p = (pending, waiting) := by
  rw [List.span_eq_takeWhile_dropWhile, List.takeWhile_append_of_pos hpending,
    List.dropWhile_append_of_pos hpending]
  cases waiting with
  | nil => rw [List.takeWhile_nil, List.dropWhile_nil, List.append_nil]
  | cons top rest =>
    have htop : ¬ p top = true := by rw [hwaiting top rfl]; exact Bool.false_ne_true
    rw [List.takeWhile_cons_of_neg htop, List.dropWhile_cons_of_neg htop, List.append_nil]

theorem release_append {precedence : Nat} {pending waiting : List Token}
    (hpending : Yields precedence pending) (hwaiting : Holds precedence waiting) :
    release precedence (pending ++ waiting) = (pending, waiting) := by
  apply span_append
  · intro t ht
    obtain ⟨hopen, hle⟩ := hpending t ht
    simp [hopen, hle]
  · intro top htop
    rcases hwaiting top htop with hopen | hlt
    · simp [hopen]
    · simp [hlt]

theorem endGroup?_append {precedence : Nat} {pending waiting : List Token} {t : Token}
    (hpending : Yields precedence pending) (ht : t.isGroupOpen = true) :
    endGroup? (pending ++ t :: waiting) = some (pending, waiting) := by
  have hspan : (pending ++ t :: waiting).span (! ·.isGroupOpen) = (pending, t :: waiting) := by
    apply span_append
    · intro u hu
      simp [(hpending u hu).1]
    · rintro top ⟨⟩
      simp [ht]
  unfold endGroup?
  rw [hspan]

theorem drain_of_yields {precedence : Nat} {pending : List Token}
    (h : Yields precedence pending) : drain pending = .ok pending := by
  induction pending with
  | nil => rfl
  | cons t rest ih =>
    have ht := (h t (by simp)).1
    unfold drain
    rw [if_neg (by simp [ht]), ih fun u hu => h u (by simp [hu])]
    rfl

/-- Ordering a phrase writes a part of it out. The rest of it waits, and binds no looser than the
phrase. -/
def Phrase (precedence : Nat) (tokens ordered : List Token) : Prop :=
  ∀ (waiting : List Token) (afterOperand : Bool) (rest : List Token), Holds precedence waiting →
    ∃ written pending, written ++ pending = ordered ∧ Yields precedence pending ∧
      order waiting afterOperand (tokens ++ rest) =
        (order (pending ++ waiting) true rest).map (written ++ ·)

theorem map_append_map {ε : Type} (x : Except ε (List Token)) (before after : List Token) :
    (x.map (after ++ ·)).map (before ++ ·) = x.map (before ++ after ++ ·) := by
  cases x with
  | error e => rfl
  | ok tokens => exact congrArg Except.ok (List.append_assoc before after tokens).symm

namespace Phrase

variable {precedence : Nat} {tokens ordered : List Token}

theorem mono {high : Nat} (h : Phrase high tokens ordered) (hle : precedence ≤ high) :
    Phrase precedence tokens ordered := by
  intro waiting afterOperand rest hwaiting
  obtain ⟨written, pending, hordered, hpending, horder⟩ :=
    h waiting afterOperand rest (hwaiting.mono hle)
  exact ⟨written, pending, hordered, hpending.mono hle, horder⟩

theorem behavior (name : String) (position : Nat) :
    Phrase precedence [⟨.behavior name, position⟩] [⟨.behavior name, position⟩] := by
  intro waiting afterOperand rest hwaiting
  exact ⟨[⟨.behavior name, position⟩], [], rfl, fun t ht => absurd ht List.not_mem_nil, rfl⟩

theorem group (h : Phrase 1 tokens ordered) (opened closed : Nat) :
    Phrase precedence (⟨.groupOpen, opened⟩ :: (tokens ++ [⟨.groupClose, closed⟩])) ordered := by
  intro waiting afterOperand rest hwaiting
  obtain ⟨written, pending, hordered, hpending, horder⟩ :=
    h (⟨.groupOpen, opened⟩ :: waiting) false (⟨.groupClose, closed⟩ :: rest)
      (holds_cons (.inl rfl))
  refine ⟨ordered, [], List.append_nil _, fun t ht => absurd ht List.not_mem_nil, ?_⟩
  have hend : order (pending ++ ⟨.groupOpen, opened⟩ :: waiting) true
      (⟨.groupClose, closed⟩ :: rest) = (order waiting true rest).map (pending ++ ·) := by
    rw [order]
    simp only [endGroup?_append hpending (t := ⟨.groupOpen, opened⟩) rfl]
  rw [List.cons_append, List.append_assoc, List.singleton_append, order]
  dsimp only
  rw [horder, hend, map_append_map, hordered]
  rfl

theorem limited (h : Phrase 3 tokens ordered) (limit : Limit) (position : Nat) :
    Phrase 3 (tokens ++ [⟨limit.kind, position⟩]) (ordered ++ [⟨limit.kind, position⟩]) := by
  intro waiting afterOperand rest hwaiting
  obtain ⟨written, pending, hordered, hpending, horder⟩ :=
    h waiting afterOperand (⟨limit.kind, position⟩ :: rest) hwaiting
  refine ⟨ordered, [⟨limit.kind, position⟩], rfl, fun t ht => ?_, ?_⟩
  · rw [List.mem_singleton] at ht
    subst ht
    cases limit <;> exact ⟨rfl, Nat.le_refl _⟩
  · have hrelease : order (pending ++ waiting) true (⟨limit.kind, position⟩ :: rest) =
        (order (⟨limit.kind, position⟩ :: waiting) true rest).map (pending ++ ·) := by
      rw [order]
      cases limit <;> simp only [Limit.kind, Token.precedence, TokenKind.precedence, if_true,
        release_append hpending hwaiting]
    rw [List.append_assoc, List.singleton_append, horder, hrelease, map_append_map, hordered]
    rfl

theorem operator {left leftOrdered right rightOrdered : List Token} (op : Operator) (position : Nat)
    (hop : (TokenKind.operator op).precedence = precedence)
    (hleft : Phrase precedence left leftOrdered)
    (hright : Phrase (precedence + 1) right rightOrdered) :
    Phrase precedence (left ++ ⟨.operator op, position⟩ :: right)
      (leftOrdered ++ rightOrdered ++ [⟨.operator op, position⟩]) := by
  intro waiting afterOperand rest hwaiting
  obtain ⟨written, pending, rfl, hpending, horder⟩ :=
    hleft waiting afterOperand (⟨.operator op, position⟩ :: right ++ rest) hwaiting
  have hrelease : order (pending ++ waiting) true (⟨.operator op, position⟩ :: (right ++ rest)) =
      (order (⟨.operator op, position⟩ :: waiting) false (right ++ rest)).map (pending ++ ·) := by
    rw [order]
    simp only [Token.precedence, hop, release_append hpending hwaiting]
  have hholds : Holds (precedence + 1) (⟨.operator op, position⟩ :: waiting) :=
    holds_cons (.inr (Nat.lt_succ_of_le (Nat.le_of_eq hop)))
  obtain ⟨written', pending', rfl, hpending', horder'⟩ := hright _ false rest hholds
  refine ⟨written ++ pending ++ written', pending' ++ [⟨.operator op, position⟩], by simp,
    fun t ht => ?_, ?_⟩
  · rcases List.mem_append.1 ht with ht | ht
    · exact hpending'.mono (Nat.le_succ _) t ht
    · rw [List.mem_singleton] at ht
      subst ht
      exact ⟨rfl, Nat.le_of_eq hop.symm⟩
  · rw [List.append_assoc, horder, List.cons_append, hrelease, horder', map_append_map,
      map_append_map, List.append_assoc pending', List.singleton_append]

theorem toPostfix (h : Phrase precedence tokens ordered) : toPostfix tokens = .ok ordered := by
  obtain ⟨written, pending, rfl, hpending, horder⟩ := h [] false [] (holds_nil _)
  rw [List.append_nil, List.append_nil] at horder
  unfold Token.toPostfix
  rw [horder, order, drain_of_yields hpending]
  rfl

end Phrase

end Token

mutual

theorem Disjunction.phrase (d : Disjunction) : Token.Phrase 1 d.tokens d.operandsFirst := by
  cases d with
  | one only => exact only.phrase.mono (by omega)
  | or left position right => exact .operator .or position rfl left.phrase right.phrase

theorem Conjunction.phrase (c : Conjunction) : Token.Phrase 2 c.tokens c.operandsFirst := by
  cases c with
  | one only => exact only.phrase.mono (by omega)
  | and left position right => exact .operator .and position rfl left.phrase right.phrase

theorem Factor.phrase (f : Factor) : Token.Phrase 3 f.tokens f.operandsFirst := by
  cases f with
  | behavior name position => exact .behavior name position
  | group opened inner closed => exact .group inner.phrase opened closed
  | limited inner limit position => exact inner.phrase.limited limit position

end

/-! ## Trees -/

namespace Expression

/-- Putting the tokens together adds one operand to the stack, whatever lies below it and whatever
tokens follow. -/
def Adds (ordered : List Token) (tree : Registry → Expression × Registry) : Prop :=
  ∃ position, ∀ (r : Registry) (operands : List Operand) (rest : List Token),
    build r operands (ordered ++ rest) = build (tree r).2 (⟨(tree r).1, position⟩ :: operands) rest

theorem Adds.operator {left right : List Token} {ltree rtree : Registry → Expression × Registry}
    (hleft : Adds left ltree) (hright : Adds right rtree) (op : Operator) (position : Nat) :
    Adds (left ++ right ++ [⟨.operator op, position⟩]) fun r =>
      (.conditional op (ltree r).1 (rtree (ltree r).2).1 {}, (rtree (ltree r).2).2) := by
  obtain ⟨start, hleft⟩ := hleft
  obtain ⟨middle, hright⟩ := hright
  refine ⟨start, fun r operands rest => ?_⟩
  rw [List.append_assoc, List.append_assoc, hleft, hright]
  rfl

theorem Adds.limited {inner : List Token} {tree : Registry → Expression × Registry}
    (h : Adds inner tree) (limit : Limit) (position : Nat) :
    Adds (inner ++ [⟨limit.kind, position⟩]) fun r =>
      ((tree r).1.mapTally limit.apply, (tree r).2) := by
  obtain ⟨start, h⟩ := h
  refine ⟨start, fun r operands rest => ?_⟩
  rw [List.append_assoc, h]
  cases limit <;> rfl

end Expression

mutual

theorem Disjunction.adds (d : Disjunction) :
    Expression.Adds d.operandsFirst fun r => d.tree r := by
  cases d with
  | one only => exact only.adds
  | or left position right => exact left.adds.operator right.adds .or position

theorem Conjunction.adds (c : Conjunction) :
    Expression.Adds c.operandsFirst fun r => c.tree r := by
  cases c with
  | one only => exact only.adds
  | and left position right => exact left.adds.operator right.adds .and position

theorem Factor.adds (f : Factor) : Expression.Adds f.operandsFirst fun r => f.tree r := by
  cases f with
  | behavior name position => exact ⟨position, fun r operands rest => rfl⟩
  | group opened inner closed => exact inner.adds
  | limited inner limit position => exact inner.adds.limited limit position

end

theorem Disjunction.build_eq (d : Disjunction) (r : Registry) :
    Expression.build r [] d.operandsFirst = (.ok (d.tree r).1, (d.tree r).2) := by
  obtain ⟨position, h⟩ := d.adds
  have hbuild := h r [] []
  rw [List.append_nil] at hbuild
  rw [hbuild]
  rfl

/-- Every sentence of the grammar is ordered and put together without a fault. What comes out is its
tree, or the postorder listing of that tree if the nodes are kept in a list. -/
theorem Disjunction.compiles (d : Disjunction) (r : Registry) :
    ∃ ordered, Token.toPostfix d.tokens = .ok ordered ∧
      Expression.build r [] ordered = (.ok (d.tree r).1, (d.tree r).2) ∧
      Arena.build r [] [] ordered =
        (.ok ((d.tree r).1.nodes, (d.tree r).1.root), (d.tree r).2) := by
  refine ⟨d.operandsFirst, d.phrase.toPostfix, d.build_eq r, ?_⟩
  have harena := Arena.build_slots r [] d.operandsFirst
  rw [d.build_eq r] at harena
  exact harena

end TimedPattern
