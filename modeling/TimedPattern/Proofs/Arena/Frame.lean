import Mathlib.Logic.Relation
import TimedPattern.Proofs.Arena.Shape

/-!
# What one event changes in a list of nodes

An event reaches the node that it is fed to and those below it, and only changes what they match.
-/

namespace TimedPattern

namespace Node

/-- A node without its matches: its kind and its limits. -/
def forget (n : Node) : Node := n.mapTally Tally.forget

theorem tally_mapTally (f : Tally → Tally) (n : Node) : (n.mapTally f).tally = f n.tally := by
  cases n <;> rfl

theorem children_forget (n : Node) : n.forget.children = n.children := by
  cases n <;> rfl

theorem forget_mapTally {n : Node} {f : Tally → Tally} (h : (f n.tally).forget = n.tally.forget) :
    (n.mapTally f).forget = n.forget := by
  cases n with
  | leaf behavior name t => exact congrArg (leaf behavior name) h
  | conditional op left right t => exact congrArg (conditional op left right) h

end Node

namespace Arena

/-! ## Subtrees -/

def childrenAt (nodes : List Node) (place : Nat) : List Nat :=
  (nodes[place]?.map Node.children).getD []

/-- The places of a node and of all nodes below it. -/
def Below (nodes : List Node) : Nat → Nat → Prop :=
  Relation.ReflTransGen fun parent child => child ∈ childrenAt nodes parent

/-- Some node at one of these places has matched an index. -/
def Holds (nodes : List Node) (inside : Nat → Prop) (index : Nat) : Prop :=
  ∃ place node, inside place ∧ nodes[place]? = some node ∧ index ∈ node.tally.matched

theorem below_of_child {nodes : List Node} {node : Node} {place child i : Nat}
    (hnode : nodes[place]? = some node) (hchild : child ∈ node.children)
    (hbelow : Below nodes child i) : Below nodes place i := by
  refine .head ?_ hbelow
  rw [childrenAt, hnode]
  exact hchild

variable {nodes changed : List Node} {inside : Nat → Prop} {a b : Attempt} {f g : Fed}
variable {place depth index : Nat} {time : Float} {event : Event}

theorem Holds.mono {outer : Nat → Prop} {i : Nat} (h : Holds nodes inside i)
    (hsub : ∀ place, inside place → outer place) : Holds nodes outer i := by
  obtain ⟨place, node, hinside, hnode, hi⟩ := h
  exact ⟨place, node, hsub place hinside, hnode, hi⟩

section Limits

variable (h : changed.map Node.forget = nodes.map Node.forget)
include h

theorem length_eq_of_limits : changed.length = nodes.length := by
  have hlength := congrArg List.length h
  rwa [List.length_map, List.length_map] at hlength

theorem exists_getElem?_of_limits {node : Node} (hnode : changed[place]? = some node) :
    ∃ before, nodes[place]? = some before ∧ node.forget = before.forget := by
  have hplace := congrArg (·[place]?) h
  simp only [List.getElem?_map, hnode, Option.map_some] at hplace
  obtain ⟨before, hbefore, hforget⟩ := Option.map_eq_some_iff.1 hplace.symm
  exact ⟨before, hbefore, hforget.symm⟩

theorem childrenAt_of_limits : childrenAt changed = childrenAt nodes := by
  have hchildren (l : List Node) (place : Nat) :
      childrenAt l place = ((l.map Node.forget)[place]?.map Node.children).getD [] := by
    rw [childrenAt, List.getElem?_map]
    cases l[place]? with
    | none => rfl
    | some node => exact (Node.children_forget node).symm
  funext place
  rw [hchildren, hchildren, h]

theorem below_of_limits : Below changed = Below nodes := by
  unfold Below
  rw [childrenAt_of_limits h]

end Limits

/-! ## Changes -/

/-- How a list of nodes and an attempt may change when an event is fed to the nodes at some of the
places. -/
structure Changes (inside : Nat → Prop) (index : Nat) (time : Float) (nodes : List Node)
    (a : Attempt) (f : Fed) : Prop where
  /-- Kinds and limits stay as they are. -/
  limits : f.nodes.map Node.forget = nodes.map Node.forget
  outside : ∀ place, ¬ inside place → f.nodes[place]? = nodes[place]?
  matched : ∀ (place : Nat) (before after : Node), nodes[place]? = some before →
    f.nodes[place]? = some after → ∀ i ∈ after.tally.matched, i ∈ before.tally.matched ∨ i = index
  attempt : a.Advance time (fun i => Holds nodes inside i ∨ i = index) f.attempt

namespace Changes

theorem unchanged {o : Outcome}
    (h : a.Advance time (fun i => Holds nodes inside i ∨ i = index) b) :
    Changes inside index time nodes a ⟨o, nodes, b⟩ := by
  refine ⟨rfl, fun _ _ => rfl, fun place before after hbefore hafter i hi => ?_, h⟩
  obtain rfl := Option.some.inj (hbefore.symm.trans hafter)
  exact .inl hi

theorem mono {outer : Nat → Prop} (h : Changes inside index time nodes a f)
    (hsub : ∀ place, inside place → outer place) : Changes outer index time nodes a f :=
  ⟨h.limits, fun place hplace => h.outside place fun hin => hplace (hsub place hin), h.matched,
    h.attempt.mono fun _ hi => hi.imp_left (·.mono hsub)⟩

theorem holds (h : Changes inside index time nodes a f) {i : Nat} (hi : Holds f.nodes inside i) :
    Holds nodes inside i ∨ i = index := by
  obtain ⟨place, after, hinside, hafter, hi⟩ := hi
  obtain ⟨before, hbefore, -⟩ := exists_getElem?_of_limits h.limits hafter
  rcases h.matched place before after hbefore hafter i hi with hi | hi
  · exact .inl ⟨place, before, hinside, hbefore, hi⟩
  · exact .inr hi

theorem trans (hf : Changes inside index time nodes a f)
    (hg : Changes inside index time f.nodes f.attempt g) :
    Changes inside index time nodes a g := by
  refine ⟨hg.limits.trans hf.limits, fun place hplace => ?_, ?_, ?_⟩
  · rw [hg.outside place hplace, hf.outside place hplace]
  · intro place before after hbefore hafter i hi
    obtain ⟨between, hbetween, -⟩ := exists_getElem?_of_limits hg.limits hafter
    rcases hg.matched place between after hbetween hafter i hi with hi | hi
    · exact hf.matched place before between hbefore hbetween i hi
    · exact .inr hi
  · refine (hf.attempt.trans hg.attempt).mono fun i hi => ?_
    rcases hi with hi | hi | hi
    · exact hi
    · exact hf.holds hi
    · exact .inr hi

theorem modify {node : Node} {t : Tally → Tally} {o : Outcome} (hnode : nodes[place]? = some node)
    (hinside : inside place) (hlimits : (t node.tally).forget = node.tally.forget)
    (hmatched : ∀ i ∈ (t node.tally).matched, i ∈ node.tally.matched ∨ i = index)
    (hattempt : a.Advance time (fun i => Holds nodes inside i ∨ i = index) b) :
    Changes inside index time nodes a ⟨o, nodes.modify place (Node.mapTally t), b⟩ := by
  refine ⟨?_, fun other hother => ?_, fun other before after hbefore hafter i hi => ?_, hattempt⟩
  · apply List.ext_getElem?
    intro other
    rw [List.getElem?_map, List.getElem?_map, List.getElem?_modify]
    split
    · rename_i hsame
      rw [← hsame, hnode]
      exact congrArg some (Node.forget_mapTally hlimits)
    · simp
  · have hne : place ≠ other := fun h => hother (h ▸ hinside)
    simp [hne]
  · rw [List.getElem?_modify] at hafter
    split at hafter
    · rename_i hsame
      rw [← hsame, hnode] at hbefore hafter
      obtain rfl := Option.some.inj hbefore
      obtain rfl := Option.some.inj hafter
      rw [Node.tally_mapTally] at hi
      exact hmatched i hi
    · rw [hbefore] at hafter
      obtain rfl : before = after := by simpa using hafter
      exact .inl hi

end Changes

/-! ## Feeding -/

theorem settle_changes {o : Outcome} (hinside : inside place)
    (h : settle nodes a place index time o = some f) :
    Changes inside index time nodes a f := by
  unfold settle at h
  split at h
  · simp at h
  · rename_i node hnode
    obtain rfl := Option.some.inj h
    obtain ⟨hlimits, hmatched, hadvance⟩ := node.tally.settle_frame a index time o
    apply Changes.modify hnode hinside hlimits hmatched
    exact hadvance.mono fun i hi => .inl ⟨place, node, hinside, hnode, hi⟩

theorem holds_of_visit {indices : IndexSet}
    (h : visit readIndices nodes depth place = some indices) {i : Nat} (hi : i ∈ indices) :
    Holds nodes (Below nodes place) i := by
  induction depth generalizing place indices with
  | zero => simp [visit] at h
  | succ depth ih =>
    unfold visit at h
    split at h
    · rename_i node hnode
      cases node with
      | leaf behavior name t =>
        obtain rfl := Option.some.inj h
        exact ⟨place, _, .refl, hnode, hi⟩
      | conditional op left right t =>
        simp only [readIndices, Option.bind_eq_bind, Option.bind_eq_some_iff,
          Option.some.injEq] at h
        obtain ⟨l, hl, r, hr, rfl⟩ := h
        rw [IndexSet.mem_union, IndexSet.mem_union] at hi
        rcases hi with (hi | hi) | hi
        · exact ⟨place, _, .refl, hnode, hi⟩
        · exact (ih hl hi).mono fun _ => below_of_child hnode (by simp [Node.children])
        · exact (ih hr hi).mono fun _ => below_of_child hnode (by simp [Node.children])
    · simp at h

theorem expire_changes (h : expire nodes a depth place = some f) :
    Changes (Below nodes place) index time nodes a f := by
  simp only [expire, Option.bind_eq_bind, Option.bind_eq_some_iff] at h
  obtain ⟨satisfied, hsatisfied, h⟩ := h
  split at h
  · simp only [Option.bind_eq_some_iff, Option.some.injEq] at h
    obtain ⟨indices, hindices, rfl⟩ := h
    apply Changes.unchanged
    exact (a.advance_collect time indices).mono fun i hi => .inl (holds_of_visit hindices hi)
  · obtain rfl := Option.some.inj h
    obtain ⟨node, hnode⟩ : ∃ node, nodes[place]? = some node := by
      cases depth with
      | zero => simp [visit] at hsatisfied
      | succ depth =>
        unfold visit at hsatisfied
        split at hsatisfied
        · exact ⟨_, by assumption⟩
        · simp at hsatisfied
    refine Changes.modify hnode .refl rfl (fun i hi => ?_) (.refl a time _)
    exact absurd hi (IndexSet.not_mem_empty i)

theorem feed_changes (h : feed index event depth place nodes a = some f) :
    Changes (Below nodes place) index event.time nodes a f := by
  induction depth generalizing place nodes a f with
  | zero => simp [feed] at h
  | succ depth ih =>
    unfold feed at h
    split at h
    · simp at h
    · rename_i node hnode
      split at h
      · obtain rfl := Option.some.inj h
        exact .unchanged (.refl a event.time _)
      · exact expire_changes h
      · cases node with
        | leaf behavior name t => exact settle_changes .refl h
        | conditional op left right t =>
          simp only [Option.bind_eq_bind, Option.bind_eq_some_iff] at h
          obtain ⟨l, hl, r, hr, hsettle⟩ := h
          have hleft := (ih hl).mono fun _ => below_of_child hnode (by simp [Node.children])
          have hright := ih hr
          -- The left side has changed no limit, so the same nodes are below as before.
          rw [below_of_limits hleft.limits] at hright
          have hsides := hleft.trans
            (hright.mono fun _ => below_of_child hnode (by simp [Node.children]))
          exact hsides.trans (settle_changes .refl hsettle)

/-! ## Walks that end -/

/-- Every node comes after its children, so no walk can leave the list or go around in it. -/
def Descends (nodes : List Node) : Prop := ∀ place, ∀ child ∈ childrenAt nodes place, child < place

theorem WellFormed.descends {root : Nat} (h : WellFormed nodes root) : Descends nodes := by
  intro place child hchild
  unfold childrenAt at hchild
  cases hnode : nodes[place]? with
  | none => simp [hnode] at hchild
  | some node =>
    rw [hnode] at hchild
    cases node with
    | leaf behavior name t => simp [Node.children] at hchild
    | conditional op left right t =>
      obtain ⟨hbetween, hbefore⟩ := h.children_before place op left right t hnode
      have : child = left ∨ child = right := by simpa [Node.children] using hchild
      omega

theorem Descends.lt {node : Node} (h : Descends nodes) (hnode : nodes[place]? = some node) :
    ∀ child ∈ node.children, child < place := by
  intro child hchild
  apply h place
  rw [childrenAt, hnode]
  exact hchild

theorem exists_visit {α : Type} {read : Node → (Nat → Option α) → Option α}
    (hread : ∀ node below, (∀ child ∈ Node.children node, ∃ x, below child = some x) →
      ∃ x, read node below = some x)
    (hnodes : Descends nodes) (hplace : place < nodes.length) (hdepth : place < depth) :
    ∃ x, visit read nodes depth place = some x := by
  induction depth generalizing place with
  | zero => omega
  | succ depth ih =>
    have hnode := List.getElem?_eq_getElem hplace
    rw [visit, hnode]
    apply hread
    intro child hchild
    have hlt := hnodes.lt hnode child hchild
    exact ih (by omega) (by omega)

theorem exists_expire (hnodes : Descends nodes) (hplace : place < nodes.length)
    (hdepth : place < depth) (a : Attempt) : ∃ f, expire nodes a depth place = some f := by
  obtain ⟨satisfied, hsatisfied⟩ : ∃ x, visit readSatisfied nodes depth place = some x := by
    apply exists_visit _ hnodes hplace hdepth
    intro node below hbelow
    cases node with
    | leaf behavior name t => exact ⟨_, rfl⟩
    | conditional op left right t =>
      obtain ⟨l, hl⟩ := hbelow left (by simp [Node.children])
      obtain ⟨r, hr⟩ := hbelow right (by simp [Node.children])
      cases hoccurrences : t.occurrences <;> cases op <;> cases l <;>
        simp [readSatisfied, hoccurrences, hl, hr]
  obtain ⟨indices, hindices⟩ : ∃ x, visit readIndices nodes depth place = some x := by
    apply exists_visit _ hnodes hplace hdepth
    intro node below hbelow
    cases node with
    | leaf behavior name t => exact ⟨_, rfl⟩
    | conditional op left right t =>
      obtain ⟨l, hl⟩ := hbelow left (by simp [Node.children])
      obtain ⟨r, hr⟩ := hbelow right (by simp [Node.children])
      simp [readIndices, hl, hr]
  rw [expire, hsatisfied, hindices]
  cases satisfied <;> simp

theorem exists_settle (hplace : place < nodes.length) (a : Attempt) (index : Nat) (time : Float)
    (o : Outcome) : ∃ f, settle nodes a place index time o = some f := by
  rw [settle, List.getElem?_eq_getElem hplace]
  exact ⟨_, rfl⟩

theorem exists_feed (hnodes : Descends nodes) (hplace : place < nodes.length)
    (hdepth : place < depth) (index : Nat) (event : Event) (a : Attempt) :
    ∃ f, feed index event depth place nodes a = some f := by
  induction depth generalizing place nodes a with
  | zero => omega
  | succ depth ih =>
    have hnode := List.getElem?_eq_getElem hplace
    rw [feed, hnode]
    dsimp only
    split
    · exact ⟨_, rfl⟩
    · exact exists_expire hnodes hplace hdepth a
    · generalize hnode' : nodes[place] = node at hnode
      cases node with
      | leaf behavior name t => exact exists_settle hplace a index event.time _
      | conditional op left right t =>
        have hleft := hnodes.lt hnode left (by simp [Node.children])
        have hright := hnodes.lt hnode right (by simp [Node.children])
        obtain ⟨l, hl⟩ := ih hnodes (show left < nodes.length by omega) (by omega) a
        have hlimits := (feed_changes hl).limits
        have hlength := length_eq_of_limits hlimits
        have hdescends : Descends l.nodes := by
          rw [Descends, childrenAt_of_limits hlimits]
          exact hnodes
        obtain ⟨r, hr⟩ := ih hdescends (show right < l.nodes.length by omega) (by omega) l.attempt
        have hlength' := length_eq_of_limits (feed_changes hr).limits
        simp only [hl, hr, Option.bind_eq_bind, Option.bind_some]
        exact exists_settle (by omega) r.attempt index event.time _

/-- Feeding an event to a node of a well-formed list ends and changes nothing but matches of this
node and those below it, and the attempt: a set of matches at most gains the index of the event, the
clock at most starts with it, and the attempt keeps its indices and only gets the one of the event
and such as these nodes held. Where a tree stands in the list, it is fed as a tree. -/
theorem feed_changes_subtree {root : Nat} (h : WellFormed nodes root) (hplace : place ≤ root)
    (index : Nat) (event : Event) (a : Attempt) :
    ∃ f, feed index event nodes.length place nodes a = some f ∧
      Changes (Below nodes place) index event.time nodes a f ∧
        ∀ before e after, nodes = listed before e after → place = top before e →
          f = .ofTree before after (e.feed index event a) := by
  have hlt : place < nodes.length := by
    have := h.root_last
    omega
  obtain ⟨f, hf⟩ := exists_feed h.descends hlt hlt index event a
  refine ⟨f, hf, feed_changes hf, ?_⟩
  rintro before e after rfl rfl
  have hdepth : e.size ≤ (listed before e after).length := by
    simp only [listed, List.length_append, Expression.length_nodesFrom]
    omega
  rw [feed_listed before after index event hdepth a] at hf
  exact (Option.some.inj hf).symm

/-- The group is fed, and takes the event in itself. The step that it is a part of does not. -/
theorem feed_changes_subtree_group :
    ∃ (p : Pattern) (step : Expression) (f : Fed),
      (Pattern.parse {} .empty "A & (B | C)[2] => P").1 = .ok p ∧ p.steps = [step] ∧
        WellFormed step.nodes step.root ∧ 3 < step.root ∧
          feed 4 ⟨⟨1⟩, 0.5⟩ step.nodes.length 3 step.nodes {} = some f ∧
            Changes (Below step.nodes 3) 4 0.5 step.nodes {} f ∧
              f.nodes.map (·.tally.matched.toList) = [[], [4], [], [4], []] := by
  obtain ⟨p, step, hp, hstep, hplace, hmatched⟩ : ∃ (p : Pattern) (step : Expression),
      (Pattern.parse {} .empty "A & (B | C)[2] => P").1 = .ok p ∧ p.steps = [step] ∧
        3 < step.root ∧
          (feed 4 ⟨⟨1⟩, 0.5⟩ step.nodes.length 3 step.nodes {}).map
            (fun f => f.nodes.map (·.tally.matched.toList)) = some [[], [4], [], [4], []] := by
    refine ⟨_, _, rfl, rfl, ?_⟩
    decide +kernel
  have hnodes := wellFormed_nodes step
  obtain ⟨f, hf, hchanges, -⟩ :=
    feed_changes_subtree hnodes (Nat.le_of_lt hplace) 4 ⟨⟨1⟩, 0.5⟩ {}
  rw [hf, Option.map_some] at hmatched
  exact ⟨p, step, f, hp, hstep, hnodes, hplace, hf, hchanges, Option.some.inj hmatched⟩

end Arena

end TimedPattern
