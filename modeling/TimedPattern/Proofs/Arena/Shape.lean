import Mathlib.Data.List.Nodup
import TimedPattern.Proofs.Arena.Walks
import TimedPattern.Proofs.Compiled
import TimedPattern.Proofs.Provenance

/-!
# The shape of the list of nodes

The root stands at the end, and every other node below exactly one conditional that comes later.
That is all a walk needs to stay inside the list and to end.
-/

namespace TimedPattern

namespace Token

/-- Whether tokens that have their operands first leave one operand, given how many there are. -/
def Reduces : (depth : Nat) → List Token → Prop
  | depth, [] => depth = 1
  | depth, t :: rest =>
    match t.kind with
    | .behavior _ => Reduces (depth + 1) rest
    | .operator _ => 2 ≤ depth ∧ Reduces (depth - 1) rest
    | .occurrences _ | .timing _ => 1 ≤ depth ∧ Reduces depth rest
    | .groupOpen | .groupClose => False

end Token

namespace Node

def children : Node → List Nat
  | leaf .. => []
  | conditional _ left right _ => [left, right]

end Node

namespace Arena

/-! ## Shape -/

/-- A list of nodes that no walk from the root can leave, or go around in. -/
structure WellFormed (nodes : List Node) (root : Nat) : Prop where
  root_last : root + 1 = nodes.length
  children_before : ∀ (i : Nat) (op : Operator) (left right : Nat) (t : Tally),
    nodes[i]? = some (Node.conditional op left right t) → left < right ∧ right < i
  one_parent : ∀ i < root, ∃! parent : Nat, ∃ node,
    nodes[parent]? = some node ∧ i ∈ Node.children node

theorem children_before_nodesFrom {e : Expression} {first i : Nat} {op : Operator}
    {left right : Nat} {t : Tally}
    (hi : (e.nodesFrom first)[i]? = some (.conditional op left right t)) :
    left < right ∧ right < first + i := by
  induction e generalizing first i with
  | leaf behavior name t => cases i <;> simp [Expression.nodesFrom] at hi
  | conditional op' l r t' ihl ihr =>
    have hl := size_pos l
    have hr := size_pos r
    rw [Expression.nodesFrom, List.append_assoc, List.getElem?_append,
      List.getElem?_append, Expression.length_nodesFrom, Expression.length_nodesFrom] at hi
    split at hi
    · exact ihl hi
    · split at hi
      · have hright := ihr hi
        omega
      · obtain ⟨hplace, hnode⟩ := List.getElem?_eq_some_iff.1 hi
        simp only [List.length_singleton, Nat.lt_one_iff] at hplace
        simp only [hplace, List.getElem_cons_zero, Node.conditional.injEq] at hnode
        omega

theorem children_nodesFrom (e : Expression) (first : Nat) :
    ((e.nodesFrom first).flatMap Node.children).Perm (List.range' first (e.size - 1)) := by
  induction e generalizing first with
  | leaf behavior name t => simp [Expression.nodesFrom, Node.children, Expression.size]
  | conditional op left right t ihl ihr =>
    obtain ⟨m, hm⟩ := Nat.exists_eq_add_one.2 (size_pos left)
    obtain ⟨n, hn⟩ := Nat.exists_eq_add_one.2 (size_pos right)
    rw [Expression.nodesFrom, List.flatMap_append, List.flatMap_append, Expression.size]
    calc _
      _ = ((left.nodesFrom first).flatMap Node.children ++
            (right.nodesFrom (first + left.size)).flatMap Node.children) ++
              [first + m, first + left.size + n] := by
        simp [Node.children, hm, hn, ← Nat.add_assoc]
      _ |>.Perm ((List.range' first m ++ List.range' (first + left.size) n) ++
          [first + m, first + left.size + n]) := by
        simpa [hm, hn] using ((ihl first).append (ihr (first + left.size))).append_right _
      _ |>.Perm ((List.range' first m ++ [first + m]) ++
          (List.range' (first + left.size) n ++ [first + left.size + n])) := by
        simpa only [List.append_assoc, List.cons_append, List.nil_append] using
          List.perm_middle.append_left _
      _ = List.range' first (left.size + right.size + 1 - 1) := by
        rw [← List.range'_1_concat, ← List.range'_1_concat, ← hm, ← hn, List.range'_append_1]
        rfl

theorem wellFormed_nodes (e : Expression) : WellFormed e.nodes e.root where
  root_last := by
    have hpos := size_pos e
    rw [Expression.nodes, Expression.length_nodesFrom, Expression.root]
    omega
  children_before i op left right t hi := by simpa using children_before_nodesFrom hi
  one_parent i hi := by
    have hperm := children_nodesFrom e 0
    have hdistinct := (List.nodup_flatMap.1 (hperm.nodup_iff.2 List.nodup_range')).2
    rw [List.pairwise_iff_getElem] at hdistinct
    obtain ⟨node, hnode, hchild⟩ : ∃ node ∈ e.nodes, i ∈ node.children := by
      rw [← List.mem_flatMap, Expression.nodes, hperm.mem_iff, List.mem_range'_1]
      rw [Expression.root] at hi
      omega
    obtain ⟨parent, hparent⟩ := List.getElem?_of_mem hnode
    refine ⟨parent, ⟨node, hparent, hchild⟩, ?_⟩
    rintro other ⟨node', hother, hchild'⟩
    obtain ⟨hlt, rfl⟩ := List.getElem?_eq_some_iff.1 hparent
    obtain ⟨hlt', rfl⟩ := List.getElem?_eq_some_iff.1 hother
    rcases Nat.lt_trichotomy other parent with h | h | h
    · exact absurd hchild (hdistinct other parent hlt' hlt h hchild')
    · exact h
    · exact absurd hchild' (hdistinct parent other hlt hlt' h hchild)

end Arena

/-! ## Which tokens can be put together -/

namespace Expression

theorem exists_only_iff {operands : List Operand} :
    (∃ e, only operands = .ok e) ↔ operands.length = 1 := by
  constructor
  · rintro ⟨e, he⟩
    obtain ⟨operand, rfl, -⟩ := only_eq_ok he
    rfl
  · intro hlength
    obtain ⟨operand, rfl⟩ := List.length_eq_one_iff.1 hlength
    exact ⟨operand.expression, rfl⟩

theorem exists_build_iff (registry : Registry) (operands : List Operand) (tokens : List Token) :
    (∃ e, (build registry operands tokens).1 = .ok e) ↔ Token.Reduces operands.length tokens := by
  fun_induction build registry operands tokens with
  | case1 registry operands => exact exists_only_iff
  | case2 registry operands t rest name hkind id grown hintern ih =>
    simpa [Token.Reduces, hkind] using ih
  | case3 registry t rest op right left below hkind joined ih =>
    simpa [Token.Reduces, hkind] using ih
  | case4 registry operands t rest op hkind hfew =>
    rcases operands with _ | ⟨first, _ | ⟨second, others⟩⟩
    · simp [Token.Reduces, hkind]
    · simp [Token.Reduces, hkind]
    · exact absurd rfl (hfew first second others)
  | case5 registry t rest range top below hkind limited ih =>
    simpa [Token.Reduces, hkind] using ih
  | case6 registry t rest range hkind => simp [Token.Reduces, hkind]
  | case7 registry t rest range top below hkind limited ih =>
    simpa [Token.Reduces, hkind] using ih
  | case8 registry t rest range hkind => simp [Token.Reduces, hkind]
  | case9 registry operands t rest hkind => simp [Token.Reduces, hkind]
  | case10 registry operands t rest hkind => simp [Token.Reduces, hkind]

theorem exists_ofPostfix_iff (d : Defaults) (registry : Registry) (tokens : List Token) :
    (∃ e, (ofPostfix d registry tokens).1 = .ok e) ↔ Token.Reduces 0 tokens := by
  have hbuild := exists_build_iff registry [] tokens
  rw [List.length_nil] at hbuild
  rw [← hbuild, ofPostfix]
  obtain ⟨result, grown⟩ := build registry [] tokens
  cases result <;> simp [Except.map]

end Expression

/-! ## Staying inside -/

namespace Arena

/-- Every walk from the root stays inside the list, goes no deeper than there are nodes, and does
what the tree does. -/
structure Walks (nodes : List Node) (root : Nat) (e : Expression) : Prop where
  isSatisfied : visit readSatisfied nodes nodes.length root = some e.isSatisfied
  indices : visit readIndices nodes nodes.length root = some e.indices
  ceiling : visit readCeiling nodes nodes.length root = some e.ceiling
  text : visit readText nodes nodes.length root = some e.write
  fill : ∀ d, fill d nodes root = some (e.fill d true true).nodes
  feed : ∀ index event a, feed index event nodes.length root nodes a =
    let f := e.feed index event a
    some ⟨f.outcome, f.expression.nodes, f.attempt⟩

theorem compile_nodes (d : Defaults) (registry : Registry) (tokens : List Token) :
    compile d registry tokens =
      ((Expression.ofPostfix d registry tokens).1.map fun e => (some e.nodes, e.root),
        (Expression.ofPostfix d registry tokens).2) := by
  have hbuild := build_slots registry [] tokens
  simp only [laid, slots] at hbuild
  rw [compile, hbuild, Expression.ofPostfix]
  obtain ⟨result, grown⟩ := Expression.build registry [] tokens
  cases result with
  | error fault => rfl
  | ok e =>
    simp only [Except.map, fill_nodes, Expression.withDefaults]
    rw [Expression.root, Expression.root, size_fill]

theorem walks_nodes (e : Expression) : Walks e.nodes e.root e := by
  have hdepth : e.size ≤ e.nodes.length := by rw [Expression.nodes, Expression.length_nodesFrom]
  have hlisted (e : Expression) : listed [] e [] = e.nodes := by simp [listed, Expression.nodes]
  have htop : top [] e = e.root := by simp [top, Expression.root]
  constructor
  case isSatisfied => simpa only [hlisted, htop] using visit_isSatisfied hdepth [] []
  case indices => simpa only [hlisted, htop] using visit_indices hdepth [] []
  case ceiling => simpa only [hlisted, htop] using visit_ceiling hdepth [] []
  case text => simpa only [hlisted, htop] using visit_text hdepth [] []
  case fill => exact fun d => fill_nodes d e
  case feed =>
    intro index event a
    simpa only [hlisted, htop, Fed.ofTree] using feed_listed [] [] index event hdepth a

theorem feedAll_nodes (e : Expression) (a : Attempt) (events : List (Event × Nat)) :
    feedAll e.root e.nodes a events =
      some ((e.feedAll a events).1.nodes, (e.feedAll a events).2) := by
  induction events generalizing e a with
  | nil => rfl
  | cons first rest ih =>
    obtain ⟨event, index⟩ := first
    have hroot : e.root = (e.feed index event a).expression.root := by
      rw [Expression.root, Expression.root, size_feed]
    rw [feedAll, (walks_nodes e).feed]
    simp only [Option.bind_eq_bind, Option.bind_some]
    rw [hroot, ih, Expression.feedAll]

/-- Tokens can be put together if and only if there are always enough operands and one is left. The
nodes then have their root at the end and every other one below exactly one conditional that comes
later. Whatever they have matched, every walk ends inside of them. -/
theorem compile_wellFormed (d : Defaults) (registry : Registry) (tokens : List Token) :
    ((∃ e, (Expression.ofPostfix d registry tokens).1 = .ok e) ↔ Token.Reduces 0 tokens) ∧
      compile d registry tokens =
        ((Expression.ofPostfix d registry tokens).1.map fun e => (some e.nodes, e.root),
          (Expression.ofPostfix d registry tokens).2) ∧
      ∀ e, (Expression.ofPostfix d registry tokens).1 = .ok e →
        ∀ now : Expression, now.reset = e.reset →
          WellFormed now.nodes e.root ∧ Walks now.nodes e.root now ∧
            ∀ (a : Attempt) (events : List (Event × Nat)),
              feedAll e.root now.nodes a events =
                some ((now.feedAll a events).1.nodes, (now.feedAll a events).2) := by
  refine ⟨Expression.exists_ofPostfix_iff d registry tokens, compile_nodes d registry tokens,
    fun e _ now hnow => ?_⟩
  have hroot : e.root = now.root := by
    rw [Expression.root, ← Expression.size_reset, ← hnow, Expression.size_reset, Expression.root]
  rw [hroot]
  exact ⟨wellFormed_nodes now, walks_nodes now, feedAll_nodes now⟩

end Arena

end TimedPattern
