import TimedPattern.Proofs.Arena
import TimedPattern.Proofs.Frame

/-!
# Walking the list of nodes

On the listing of a tree every walk succeeds, is never deeper than there are nodes, and gives what
the tree gives.
-/

namespace TimedPattern

namespace Arena

/-! ## A tree within a list -/

/-- A list of nodes in which those of a tree stand between others. -/
def listed (before : List Node) (e : Expression) (after : List Node) : List Node :=
  before ++ e.nodesFrom before.length ++ after

/-- The place of the root of a tree that comes after some nodes. -/
def top (before : List Node) (e : Expression) : Nat := before.length + e.size - 1

theorem size_pos (e : Expression) : 0 < e.size := by
  cases e <;> simp [Expression.size]

theorem exists_depth_below {e : Expression} {depth : Nat} (h : e.size ≤ depth) :
    ∃ below, depth = below + 1 :=
  Nat.exists_eq_add_one.2 (Nat.lt_of_lt_of_le (size_pos e) h)

section Parts

variable (op : Operator) (left right : Expression) (t : Tally) (before after : List Node)

/-- The root of a conditional that comes after some nodes. -/
def join : Node :=
  .conditional op (before.length + left.size - 1) (before.length + left.size + right.size - 1) t

theorem top_right :
    top (before ++ left.nodesFrom before.length) right =
      before.length + left.size + right.size - 1 := by
  simp [top]

variable {left right}

theorem listed_left {changed : Expression} (hsize : changed.size = left.size) :
    listed before (.conditional op changed right t) after =
      listed before changed
        (right.nodesFrom (before.length + left.size) ++ join op left right t before :: after) := by
  simp [listed, Expression.nodesFrom, join, hsize]

theorem listed_right {changed : Expression} (hsize : changed.size = right.size) :
    listed before (.conditional op left changed t) after =
      listed (before ++ left.nodesFrom before.length) changed
        (join op left right t before :: after) := by
  simp [listed, Expression.nodesFrom, join, hsize]

theorem getElem?_leaf (behavior : BehaviorId) (name : String) :
    (listed before (.leaf behavior name t) after)[top before (.leaf behavior name t)]? =
      some (.leaf behavior name t) := by
  simp [listed, Expression.nodesFrom, top, Expression.size]

theorem getElem?_conditional :
    (listed before (.conditional op left right t) after)[
      top before (.conditional op left right t)]? = some (join op left right t before) := by
  simp [listed, Expression.nodesFrom, join, top, Expression.size]

end Parts

theorem modify_append {l : List Node} {i : Nat} (h : i < l.length) (r : List Node)
    (f : Node → Node) : (l ++ r).modify i f = l.modify i f ++ r := by
  have hlonger : i < (l ++ r).length := by
    rw [List.length_append]
    omega
  rw [List.modify_eq_take_cons_drop h, List.modify_eq_take_cons_drop hlonger,
    List.take_append_of_le_length (Nat.le_of_lt h), List.drop_append_of_le_length h,
    List.getElem_append_left h]
  simp

theorem modify_listed (f : Tally → Tally) (before : List Node) (e : Expression)
    (after : List Node) :
    (listed before e after).modify (top before e) (Node.mapTally f) =
      listed before (e.mapTally f) after := by
  have hinside : top before e < (before ++ e.nodesFrom before.length).length := by
    have hpos := size_pos e
    rw [top, List.length_append, Expression.length_nodesFrom]
    omega
  rw [listed, modify_append hinside, top, modify_nodesFrom, listed]

/-! ## Reading a listed tree -/

/-- A walk that makes of each node what the tree does gives what the whole tree gives. -/
theorem visit_listed {α : Type} {read : Node → (Nat → Option α) → Option α} {g : Expression → α}
    (hleaf : ∀ behavior name t below,
      read (.leaf behavior name t) below = some (g (.leaf behavior name t)))
    (hconditional : ∀ op l r left right t below, below l = some (g left) →
      below r = some (g right) →
        read (.conditional op l r t) below = some (g (.conditional op left right t)))
    {e : Expression} {depth : Nat} (hdepth : e.size ≤ depth) (before after : List Node) :
    visit read (listed before e after) depth (top before e) = some (g e) := by
  induction e generalizing depth before after with
  | leaf behavior name t =>
    obtain ⟨depth, rfl⟩ := exists_depth_below hdepth
    rw [visit, getElem?_leaf]
    exact hleaf behavior name t _
  | conditional op left right t ihl ihr =>
    obtain ⟨depth, rfl⟩ := exists_depth_below hdepth
    rw [Expression.size] at hdepth
    rw [visit, getElem?_conditional]
    refine hconditional op _ _ left right t _ ?_ ?_
    · rw [listed_left op t before after rfl]
      exact ihl (by omega) before _
    · rw [listed_right op t before after rfl, ← top_right]
      exact ihr (by omega) _ _

section Reading

variable {e : Expression} {depth : Nat} (hdepth : e.size ≤ depth) (before after : List Node)
include hdepth

theorem visit_isSatisfied :
    visit readSatisfied (listed before e after) depth (top before e) = some e.isSatisfied := by
  refine visit_listed (fun _ _ _ _ => rfl) (fun op l r left right t below hl hr => ?_) hdepth _ _
  unfold readSatisfied Expression.isSatisfied
  dsimp only
  cases t.occurrences with
  | some range => rfl
  | none =>
    cases op with
    | and => cases hs : left.isSatisfied <;> simp [hl, hr, hs]
    | or => cases hs : left.isSatisfied <;> simp [hl, hr, hs]

theorem visit_indices :
    visit readIndices (listed before e after) depth (top before e) = some e.indices := by
  refine visit_listed (fun _ _ _ _ => rfl) (fun op l r left right t below hl hr => ?_) hdepth _ _
  simp [readIndices, Expression.indices, hl, hr]

theorem visit_ceiling :
    visit readCeiling (listed before e after) depth (top before e) = some e.ceiling := by
  refine visit_listed (fun _ _ _ _ => rfl) (fun op l r left right t below hl hr => ?_) hdepth _ _
  unfold readCeiling Expression.ceiling
  dsimp only
  cases t.timing with
  | some window => rfl
  | none =>
    simp only [hl, hr, Option.bind_eq_bind, Option.bind_some]
    cases left.ceiling <;> cases right.ceiling <;> rfl

theorem visit_text :
    visit readText (listed before e after) depth (top before e) = some e.write := by
  refine visit_listed (fun _ _ _ _ => rfl) (fun op l r left right t below hl hr => ?_) hdepth _ _
  simp [readText, Expression.write, hl, hr]

end Reading

/-! ## Filling in the defaults of a listed tree -/

theorem fill_closed (d : Defaults) (e : Expression) : e.fill d false false = e := by
  induction e with
  | leaf behavior name t => rfl
  | conditional op left right t ihl ihr => simp [Expression.fill, ihl, ihr]

@[simp] theorem size_fill (d : Defaults) (countOpen timeOpen : Bool) (e : Expression) :
    (e.fill d countOpen timeOpen).size = e.size := by
  induction e generalizing countOpen timeOpen with
  | leaf => rfl
  | conditional op left right t ihl ihr => simp [Expression.fill, Expression.size, ihl, ihr]

theorem fillFrom_listed (d : Defaults) (countOpen timeOpen : Bool) (e : Expression) (steps : Nat)
    (pending : List (Nat × Bool × Bool)) (before after : List Node) :
    ∃ unused, steps ≤ unused ∧
      fillFrom d (e.size + steps) ((top before e, countOpen, timeOpen) :: pending)
          (listed before e after) =
        fillFrom d unused pending (listed before (e.fill d countOpen timeOpen) after) := by
  induction e generalizing countOpen timeOpen steps pending before after with
  | leaf behavior name t =>
    obtain ⟨occurrences, timing, matched⟩ := t
    refine ⟨steps, Nat.le_refl _, ?_⟩
    rw [show (Expression.leaf behavior name _).size + steps = steps + 1 by
      rw [Expression.size, Nat.add_comm], fillFrom, getElem?_leaf]
    dsimp only
    rw [modify_listed, Expression.mapTally, Expression.fill]
    congr 3
    cases countOpen <;> cases timeOpen <;> cases occurrences <;> cases timing <;> rfl
  | conditional op left right t ihl ihr =>
    rw [show (Expression.conditional op left right t).size + steps =
      left.size + (right.size + steps) + 1 by rw [Expression.size]; omega, fillFrom,
      getElem?_conditional]
    dsimp only [join, Node.tally]
    rw [Expression.fill]
    generalize (countOpen && t.occurrences.isNone) = countOpen
    generalize (timeOpen && t.timing.isNone) = timeOpen
    split
    case isTrue hopen =>
      obtain ⟨afterLeft, hfewer, hleft⟩ := ihl countOpen timeOpen (right.size + steps)
        ((before.length + left.size + right.size - 1, countOpen, timeOpen) :: pending) before
        (right.nodesFrom (before.length + left.size) ++ join op left right t before :: after)
      obtain ⟨unused, hunused, hright⟩ := ihr countOpen timeOpen (afterLeft - right.size) pending
        (before ++ (left.fill d countOpen timeOpen).nodesFrom before.length)
        (join op (left.fill d countOpen timeOpen) right t before :: after)
      rw [← listed_left op t before after rfl, ← listed_left op t before after (size_fill ..)]
        at hleft
      rw [Nat.add_sub_cancel' (by omega), top_right, size_fill,
        ← listed_right op t before after rfl, ← listed_right op t before after (size_fill ..)]
        at hright
      exact ⟨unused, by omega, hleft.trans hright⟩
    case isFalse hclosed =>
      -- With nothing open neither side is gone into, so its steps are left over.
      refine ⟨left.size + (right.size + steps), by omega, ?_⟩
      obtain ⟨rfl, rfl⟩ : countOpen = false ∧ timeOpen = false := by simpa using hclosed
      rw [fill_closed, fill_closed]

theorem fill_nodes (d : Defaults) (e : Expression) :
    fill d e.nodes e.root = some (e.fill d true true).nodes := by
  obtain ⟨unused, -, hfill⟩ := fillFrom_listed d true true e 0 [] [] []
  simpa [fill, fillFrom, listed, top, Expression.nodes, Expression.root] using hfill

/-! ## Feeding an event to a listed tree -/

@[simp] theorem size_feed (index : Nat) (event : Event) (e : Expression) (a : Attempt) :
    (e.feed index event a).expression.size = e.size := by
  rw [← Expression.size_reset, (e.feed_frame a index event).limits, Expression.size_reset]

theorem exists_getElem?_top (before : List Node) (e : Expression) (after : List Node) :
    ∃ node, (listed before e after)[top before e]? = some node ∧ node.tally = e.tally := by
  cases e with
  | leaf behavior name t => exact ⟨_, getElem?_leaf t before after behavior name, rfl⟩
  | conditional op left right t => exact ⟨_, getElem?_conditional op t before after, rfl⟩

section Feeding

variable (before after : List Node)

/-- What feeding a tree gives, with the tree in a list. -/
def Fed.ofTree (f : TimedPattern.Fed) : Fed :=
  ⟨f.outcome, listed before f.expression after, f.attempt⟩

theorem expire_listed {e : Expression} {depth : Nat} (hdepth : e.size ≤ depth) (a : Attempt) :
    expire (listed before e after) a depth (top before e) =
      some (.ofTree before after (e.expire a)) := by
  rw [expire, visit_isSatisfied hdepth, visit_indices hdepth, modify_listed]
  cases hs : e.isSatisfied <;> simp [Expression.expire, Fed.ofTree, hs]

theorem settle_listed (e : Expression) (a : Attempt) (index : Nat) (time : Float) (o : Outcome) :
    settle (listed before e after) a (top before e) index time o =
      let (o, t, a) := e.tally.settle a index time o
      some ⟨o, listed before (e.mapTally fun _ => t) after, a⟩ := by
  obtain ⟨node, hnode, htally⟩ := exists_getElem?_top before e after
  rw [settle, hnode, ← htally]
  simp only [modify_listed]

theorem feed_listed (index : Nat) (event : Event) {e : Expression} {depth : Nat}
    (hdepth : e.size ≤ depth) (a : Attempt) :
    feed index event depth (top before e) (listed before e after) a =
      some (.ofTree before after (e.feed index event a)) := by
  induction e generalizing depth before after a with
  | leaf behavior name t =>
    obtain ⟨depth, rfl⟩ := exists_depth_below hdepth
    rw [feed, getElem?_leaf]
    dsimp only [Node.tally]
    cases hphase : a.phase event.time t.timing with
    | early => rw [Expression.feed_early (e := .leaf behavior name t) hphase]; rfl
    | late =>
      rw [Expression.feed_late (e := .leaf behavior name t) hphase]
      exact expire_listed before after hdepth a
    | inside => rw [settle_listed, Expression.feed, hphase]; rfl
  | conditional op left right t ihl ihr =>
    obtain ⟨depth, rfl⟩ := exists_depth_below hdepth
    rw [feed, getElem?_conditional]
    dsimp only [Node.tally, join]
    cases hphase : a.phase event.time t.timing with
    | early => rw [Expression.feed_early (e := .conditional op left right t) hphase]; rfl
    | late =>
      rw [Expression.feed_late (e := .conditional op left right t) hphase]
      exact expire_listed before after hdepth a
    | inside =>
      rw [Expression.size] at hdepth
      -- The left side is fed in front of the right one, and the right side behind the new left one.
      have hleft := ihl before
        (right.nodesFrom (before.length + left.size) ++ join op left right t before :: after)
        (show left.size ≤ depth by omega) a
      rw [Fed.ofTree, ← listed_left op t before after rfl,
        ← listed_left op t before after (size_feed ..)] at hleft
      have hl := size_feed index event left a
      dsimp only
      rw [← top, hleft, Expression.feed, hphase]
      dsimp only
      generalize left.feed index event a = l at hl ⊢
      have hright := ihr (before ++ l.expression.nodesFrom before.length)
        (join op l.expression right t before :: after) (show right.size ≤ depth by omega)
        l.attempt
      rw [Fed.ofTree, top_right, hl, ← listed_right op t before after rfl,
        ← listed_right op t before after (size_feed ..)] at hright
      have hr := size_feed index event right l.attempt
      simp only [Option.bind_eq_bind, Option.bind_some, hright]
      generalize right.feed index event l.attempt = r at hr ⊢
      have htop : top before (.conditional op left right t) =
          top before (.conditional op l.expression r.expression t) := by
        rw [top, top, Expression.size, Expression.size, hl, hr]
      rw [htop]
      exact settle_listed before after (.conditional op l.expression r.expression t) r.attempt
        index event.time (op.join l.outcome r.outcome)

end Feeding

end Arena

end TimedPattern
