import TimedPattern.Expression.Arena

/-!
# Trees in one list

The stack holds the places of the roots. What is made is the listing of the tree that
`Expression.build` puts together, with its root at the end.
-/

namespace TimedPattern

namespace Arena

/-! ## The list behind a stack of trees -/

/-- The trees of a stack, one behind the other. The stack has the latest one first. -/
def laid : List Operand → List Node
  | [] => []
  | operand :: below => laid below ++ operand.expression.nodesFrom (laid below).length

/-- The places of the roots of a stack. -/
def slots : List Operand → List Slot
  | [] => []
  | operand :: below =>
    ⟨(laid below).length + operand.expression.size - 1, operand.position⟩ :: slots below

theorem length_laid_cons (operand : Operand) (below : List Operand) :
    (laid (operand :: below)).length = (laid below).length + operand.expression.size := by
  rw [laid, List.length_append, Expression.length_nodesFrom]

theorem laid_joined (op : Operator) (left right : Operand) (below : List Operand) :
    laid (right :: left :: below) ++
        [.conditional op ((laid below).length + left.expression.size - 1)
          ((laid (left :: below)).length + right.expression.size - 1) {}] =
      laid (⟨.conditional op left.expression right.expression {}, left.position⟩ :: below) := by
  rw [length_laid_cons, laid, length_laid_cons, laid, laid, Expression.nodesFrom]
  simp only [List.append_assoc]

theorem position_slots (operands : List Operand) :
    (slots operands).map Slot.position = operands.map Operand.position := by
  induction operands with
  | nil => rfl
  | cons operand below ih => rw [slots, List.map_cons, List.map_cons, ih]

theorem only_slots (operands : List Operand) :
    only (laid operands) (slots operands) =
      (Expression.only operands).map fun e => (e.nodes, e.root) := by
  cases operands with
  | nil => rfl
  | cons operand below =>
    have hposition := congrArg List.reverse (position_slots (operand :: below))
    rw [← List.map_reverse, ← List.map_reverse] at hposition
    cases below with
    | nil =>
      simp [only, slots, laid, Expression.only, Expression.nodes, Expression.root, Except.map]
    | cons next below =>
      unfold only Expression.only
      generalize hs : (slots (operand :: next :: below)).reverse = s at hposition
      generalize ho : (operand :: next :: below).reverse = o at hposition
      rcases o with _ | ⟨first, _ | ⟨second, others⟩⟩
      · simp at ho
      · exact absurd (congrArg List.length ho) (by simp)
      · rcases s with _ | ⟨slot, _ | ⟨other, more⟩⟩
        · simp at hposition
        · simp at hposition
        · simp only [List.map_cons, List.cons.injEq] at hposition
          simp only [hposition.2.1]
          rfl

theorem size_mapTally (f : Tally → Tally) (e : Expression) : (e.mapTally f).size = e.size := by
  cases e <;> rfl

theorem modify_nodesFrom (f : Tally → Tally) (before : List Node) (e : Expression) (first : Nat) :
    (before ++ e.nodesFrom first).modify (before.length + e.size - 1) (Node.mapTally f) =
      before ++ (e.mapTally f).nodesFrom first := by
  obtain ⟨others, root, hnodes, hmapped⟩ : ∃ others root, e.nodesFrom first = others ++ [root] ∧
      (e.mapTally f).nodesFrom first = others ++ [root.mapTally f] := by
    cases e with
    | leaf behavior name t => exact ⟨[], _, rfl, rfl⟩
    | conditional op left right t => exact ⟨_, _, rfl, rfl⟩
  have hsize : others.length + 1 = e.size := by
    rw [← Expression.length_nodesFrom first e, hnodes, List.length_append, List.length_singleton]
  rw [hnodes, hmapped, ← hsize, List.modify_eq_take_cons_drop (by simp)]
  simp [← List.append_assoc]

/-- Both ways of putting tokens together agree, also in their faults. -/
theorem build_slots (registry : Registry) (operands : List Operand) (tokens : List Token) :
    build registry (laid operands) (slots operands) tokens =
      ((Expression.build registry operands tokens).1.map fun e => (e.nodes, e.root),
        (Expression.build registry operands tokens).2) := by
  fun_induction Expression.build registry operands tokens with
  | case1 registry operands => rw [build, only_slots]
  | case2 registry operands t rest name hkind id grown hintern ih =>
    rw [← ih]
    simp only [build, hkind, hintern]
    rfl
  | case3 registry t rest op right left below hkind joined ih =>
    have hplace : (laid (right :: left :: below)).length =
        (laid below).length + joined.size - 1 := by
      rw [length_laid_cons, length_laid_cons]
      simp only [joined, Expression.size]
      omega
    rw [← ih]
    simp only [build, hkind, slots]
    -- The new root is put where the nodes of its tree end.
    rw [laid_joined, hplace]
  | case4 registry operands t rest op hkind hfew =>
    rcases operands with _ | ⟨first, _ | ⟨second, others⟩⟩
    · simp only [build, hkind, slots]
      rfl
    · simp only [build, hkind, slots]
      rfl
    · exact absurd rfl (hfew first second others)
  | case5 registry t rest range top below hkind limited ih =>
    rw [← ih]
    simp only [build, hkind, slots]
    rw [laid, modify_nodesFrom, laid, size_mapTally]
  | case6 registry t rest range hkind => simp only [build, hkind, slots]; rfl
  | case7 registry t rest range top below hkind limited ih =>
    rw [← ih]
    simp only [build, hkind, slots]
    rw [laid, modify_nodesFrom, laid, size_mapTally]
  | case8 registry t rest range hkind => simp only [build, hkind, slots]; rfl
  | case9 registry operands t rest hkind => simp only [build, hkind]; rfl
  | case10 registry operands t rest hkind => simp only [build, hkind]; rfl

end Arena

end TimedPattern
