import TimedPattern.Proofs.Ceilings
import TimedPattern.Proofs.Chain

/-!
# Where matched indices come from

Attempts only collect what nodes have held, and nodes only take in what a leaf below them asks for.
-/

namespace TimedPattern

namespace Expression

/-- The behaviors that the leaves of the tree ask for. -/
def behaviors : Expression → List BehaviorId
  | leaf behavior _ _ => [behavior]
  | conditional _ left right _ => left.behaviors ++ right.behaviors

/-- The tree and the attempt after events with their indices were fed one by one. -/
def feedAll : Expression → Attempt → List (Event × Nat) → Expression × Attempt
  | e, a, [] => (e, a)
  | e, a, (event, index) :: rest =>
    let f := e.feed index event a
    f.expression.feedAll f.attempt rest

end Expression

/-- The count of the node does not exceed what the node allows. -/
def Tally.Bounded (t : Tally) : Prop :=
  ∀ range, t.occurrences = some range → Float.ofNat t.count ≤ range.maximum

/-- The root of the tree holds events that were fed, each with a behavior of the tree, and no more
of them than its count allows. -/
structure Expression.Sourced (fed : List (Event × Nat)) (e : Expression) : Prop where
  matched : ∀ i ∈ e.tally.matched, ∃ event, (event, i) ∈ fed ∧ event.behavior ∈ e.behaviors
  bounded : e.tally.Bounded

/-! ## Counts -/

namespace Tally

variable {t : Tally}

theorem forget_bounded (t : Tally) : t.forget.Bounded := by
  intro range _
  exact range.zero_le_maximum

theorem judge_bounded (t : Tally) (o : Outcome) : (t.judge o).2.Bounded := by
  unfold judge
  split
  · rename_i hunlimited
    intro range hrange
    rw [hunlimited] at hrange
    cases hrange
  · rename_i limit hlimit
    split
    · rename_i hfew
      intro range hrange
      obtain rfl := Option.some.inj (hlimit.symm.trans hrange)
      -- A count below the minimum is below the maximum, too.
      exact le_of_lt_of_le hfew limit.ordered
    · split
      · exact t.forget_bounded
      · rename_i hmany
        intro range hrange
        obtain rfl := Option.some.inj (hlimit.symm.trans hrange)
        exact le_of_not_lt (isNaN_of_le limit.zero_le_maximum).2 (isNaN_ofNat _) hmany

theorem settle_bounded (h : t.Bounded) (a : Attempt) (index : Nat) (time : Float) (o : Outcome) :
    (t.settle a index time o).2.1.Bounded := by
  have hoccurrences := t.record_occurrences a index time o
  have hmatched := t.record_matched a index time o
  unfold settle
  generalize t.record a index time o = r at hoccurrences hmatched ⊢
  dsimp only
  split
  · rename_i hinvalid
    -- An event that comes before anything matched is not judged, but not counted either.
    rw [if_neg hinvalid.1] at hmatched
    intro range hrange
    rw [hoccurrences] at hrange
    unfold count
    rw [hmatched]
    exact h range hrange
  · exact r.1.judge_bounded o

theorem mem_matched_settle {a : Attempt} {index i : Nat} {time : Float} {o : Outcome}
    (h : i ∈ (t.settle a index time o).2.1.matched) :
    i ∈ t.matched ∨ i = index ∧ o = .stepped := by
  rcases (t.settle_tally a index time o).1 with hsettled | hforgotten
  · rw [hsettled, record_matched] at h
    split at h
    · rename_i hstepped
      rcases IndexSet.mem_insert.1 h with hi | hi
      · exact .inr ⟨hi, hstepped⟩
      · exact .inl hi
    · exact .inl h
  · rw [hforgotten] at h
    exact absurd h (IndexSet.not_mem_empty i)

end Tally

/-! ## Collected indices -/

theorem Scan.mem_collected {s : Scan} {i : Nat} (h : i ∈ s.collected.indices) :
    i ∈ s.carried.indices ∨ i ∈ s.expression.indices := by
  unfold collected at h
  split at h
  · split at h
    · exact Attempt.mem_collect.1 h
    · exact .inl h
  · exact .inl h

/-! ## Behaviors -/

namespace Expression

variable {e node : Expression} {a : Attempt} {index i : Nat} {event : Event}
variable {fed : List (Event × Nat)} {path : List Side}

theorem behaviors_reset (e : Expression) : e.reset.behaviors = e.behaviors := by
  induction e with
  | leaf behavior name t => rfl
  | conditional op left right t ihl ihr => rw [reset, behaviors, behaviors, ihl, ihr]

theorem behaviors_feed (e : Expression) (a : Attempt) (index : Nat) (event : Event) :
    (e.feed index event a).expression.behaviors = e.behaviors := by
  have hlimits := (e.feed_frame a index event).limits
  rw [← behaviors_reset, hlimits, behaviors_reset]

theorem behavior_mem_of_isStepped (h : (e.feed index event a).outcome.isStepped = true) :
    event.behavior ∈ e.behaviors := by
  induction e generalizing a with
  | leaf behavior name t =>
    unfold feed at h
    split at h
    · simp [Outcome.isStepped] at h
    · simp [expire_not_isStepped] at h
    · obtain ⟨ho, -⟩ := Tally.settle_isStepped h
      split at ho
      · rename_i hbehavior
        rw [← hbehavior]
        exact List.mem_singleton_self behavior
      · simp [Outcome.isStepped] at ho
  | conditional op left right t ihl ihr =>
    unfold feed at h
    split at h
    · simp [Outcome.isStepped] at h
    · simp [expire_not_isStepped] at h
    · obtain ⟨ho, -⟩ := Tally.settle_isStepped h
      apply List.mem_append.2
      -- What advances a node advances one of its sides.
      rcases op.join_eq_or (left.feed index event a).outcome
        (right.feed index event (left.feed index event a).attempt).outcome with hl | hr
      · rw [hl] at ho
        exact .inl (ihl ho)
      · rw [hr] at ho
        exact .inr (ihr ho)

/-! ## One event -/

theorem expire_tally (e : Expression) (a : Attempt) :
    (e.expire a).expression.tally = e.tally ∨ (e.expire a).expression.tally = e.tally.forget := by
  unfold expire
  split
  · exact .inl rfl
  · exact .inr (e.tally_mapTally Tally.forget)

theorem feed_tally (e : Expression) (a : Attempt) (index : Nat) (event : Event) :
    (e.feed index event a).expression.tally = e.tally ∨
      (e.feed index event a).expression.tally = e.tally.forget ∨
        ∃ b o, (e.feed index event a).expression.tally =
          (e.tally.settle b index event.time o).2.1 ∧
            (o = .stepped → event.behavior ∈ e.behaviors) := by
  cases hphase : a.phase event.time e.tally.timing with
  | early =>
    left
    rw [feed_early hphase]
  | late =>
    rw [feed_late hphase]
    rcases e.expire_tally a with hkept | hforgotten
    · exact .inl hkept
    · exact .inr (.inl hforgotten)
  | inside =>
    right
    right
    cases e with
    | leaf behavior name t =>
      unfold feed
      rw [show a.phase event.time t.timing = _ from hphase]
      refine ⟨a, _, rfl, fun hstepped => ?_⟩
      split at hstepped
      · rename_i hbehavior
        rw [← hbehavior]
        exact List.mem_singleton_self behavior
      · cases hstepped
    | conditional op left right t =>
      unfold feed
      rw [show a.phase event.time t.timing = _ from hphase]
      -- The outcome of a conditional is that of one of its sides.
      refine ⟨_, _, rfl, fun hstepped => List.mem_append.2 ?_⟩
      rcases op.join_eq_or (left.feed index event a).outcome
        (right.feed index event (left.feed index event a).attempt).outcome with hl | hr
      · rw [hl] at hstepped
        exact .inl (behavior_mem_of_isStepped (by rw [hstepped]; rfl))
      · rw [hr] at hstepped
        exact .inr (behavior_mem_of_isStepped (by rw [hstepped]; rfl))

theorem mem_matched_feed (h : i ∈ (e.feed index event a).expression.tally.matched) :
    i ∈ e.tally.matched ∨ i = index ∧ event.behavior ∈ e.behaviors := by
  rcases e.feed_tally a index event with hkept | hforgotten | ⟨b, o, hsettled, hbehavior⟩
  · rw [hkept] at h
    exact .inl h
  · rw [hforgotten] at h
    exact absurd h (IndexSet.not_mem_empty i)
  · rw [hsettled] at h
    rcases Tally.mem_matched_settle h with hi | ⟨hi, hstepped⟩
    · exact .inl hi
    · exact .inr ⟨hi, hbehavior hstepped⟩

theorem feed_bounded (h : e.tally.Bounded) (a : Attempt) (index : Nat) (event : Event) :
    (e.feed index event a).expression.tally.Bounded := by
  rcases e.feed_tally a index event with hkept | hforgotten | ⟨b, o, hsettled, -⟩
  · rw [hkept]
    exact h
  · rw [hforgotten]
    exact e.tally.forget_bounded
  · rw [hsettled]
    exact Tally.settle_bounded h b index event.time o

theorem Sourced.feed (h : e.Sourced fed) (a : Attempt) (index : Nat) (event : Event) :
    (e.feed index event a).expression.Sourced (fed ++ [(event, index)]) := by
  refine ⟨fun i hi => ?_, feed_bounded h.bounded a index event⟩
  rw [behaviors_feed]
  rcases mem_matched_feed hi with hi | ⟨rfl, hbehavior⟩
  · obtain ⟨source, hsource, hbehavior⟩ := h.matched i hi
    exact ⟨source, List.mem_append_left _ hsource, hbehavior⟩
  · exact ⟨event, List.mem_append_right _ (List.mem_singleton_self _), hbehavior⟩

theorem Sourced.later (h : e.Sourced fed) (later : List (Event × Nat)) :
    e.Sourced (fed ++ later) := by
  refine ⟨fun i hi => ?_, h.bounded⟩
  obtain ⟨source, hsource, hbehavior⟩ := h.matched i hi
  exact ⟨source, List.mem_append_left _ hsource, hbehavior⟩

/-! ## Whole trees -/

theorem exists_below?_of_feedBelow {f : Fed} (h : e.feedBelow index event path a = some f) :
    ∃ node, e.below? path = some node := by
  induction path generalizing e a with
  | nil => exact ⟨e, rfl⟩
  | cons side path ih =>
    cases e with
    | leaf behavior name t => cases side <;> cases h
    | conditional op left right t =>
      cases side with
      | left => exact ih (Option.ite_none_right_eq_some.1 h).2
      | right => exact ih (Option.ite_none_right_eq_some.1 h).2

theorem exists_of_below?_reset (h : e.reset.below? path = some node) :
    ∃ before : Expression, node = before.reset := by
  induction path generalizing e with
  | nil => exact ⟨e, (Option.some.inj h).symm⟩
  | cons side path ih =>
    cases e with
    | leaf behavior name t => cases side <;> cases h
    | conditional op left right t =>
      cases side with
      | left => exact ih h
      | right => exact ih h

/-- Every node of the tree is sourced. -/
def AllSourced (fed : List (Event × Nat)) (e : Expression) : Prop :=
  ∀ path node, e.below? path = some node → node.Sourced fed

theorem reset_sourced (e : Expression) : e.reset.Sourced [] := by
  refine ⟨fun i hi => ?_, ?_⟩
  · rw [tally_reset] at hi
    exact absurd hi (IndexSet.not_mem_empty i)
  · rw [tally_reset]
    exact e.tally.forget_bounded

theorem reset_allSourced (e : Expression) : e.reset.AllSourced [] := by
  intro path node hnode
  obtain ⟨before, rfl⟩ := exists_of_below?_reset hnode
  exact before.reset_sourced

theorem AllSourced.feed (h : e.AllSourced fed) (a : Attempt) (index : Nat) (event : Event) :
    (e.feed index event a).expression.AllSourced (fed ++ [(event, index)]) := by
  intro path node hnode
  rw [below?_feed] at hnode
  cases hfed : e.feedBelow index event path a with
  | none =>
    rw [hfed] at hnode
    exact (h path node hnode).later _
  | some f =>
    rw [hfed] at hnode
    obtain ⟨before, hbefore⟩ := exists_below?_of_feedBelow hfed
    obtain ⟨b, rfl⟩ := exists_feed_of_feedBelow hbefore hfed
    obtain rfl := Option.some.inj hnode
    exact (h path before hbefore).feed b index event

theorem AllSourced.feedAll (h : e.AllSourced fed) (a : Attempt) (events : List (Event × Nat)) :
    (e.feedAll a events).1.AllSourced (fed ++ events) := by
  induction events generalizing e a fed with
  | nil =>
    rw [List.append_nil]
    exact h
  | cons pair events ih =>
    obtain ⟨event, index⟩ := pair
    rw [List.append_cons]
    exact ih (h.feed a index event) _

/-! ## Attempts -/

theorem expire_advance (e : Expression) (a : Attempt) (time : Float) :
    a.Advance time (· ∈ e.indices) (e.expire a).attempt := by
  unfold expire
  split
  · exact a.advance_collect time e.indices
  · exact .refl a time _

theorem feed_advance (e : Expression) (a : Attempt) (index : Nat) (event : Event) :
    a.Advance event.time (· ∈ e.indices) (e.feed index event a).attempt := by
  induction e generalizing a with
  | leaf behavior name t =>
    unfold feed
    split
    · exact .refl a event.time _
    · exact expire_advance _ a event.time
    · exact (t.settle_frame a index event.time _).2.2
  | conditional op left right t ihl ihr =>
    unfold feed
    split
    · exact .refl a event.time _
    · exact expire_advance _ a event.time
    · have hl := ihl a
      have hr := ihr (left.feed index event a).attempt
      dsimp only
      generalize left.feed index event a = l at hl hr ⊢
      generalize right.feed index event l.attempt = r at hr ⊢
      obtain ⟨-, -, hadvance⟩ := t.settle_frame r.attempt index event.time
        (op.join l.outcome r.outcome)
      refine ((hl.trans hr).trans hadvance).mono fun i hi => ?_
      rw [mem_indices_conditional]
      rcases hi with (hi | hi) | hi <;> simp [hi]

/-! ## Whole runs -/

theorem behaviors_below? (h : e.below? path = some node) : node.behaviors ⊆ e.behaviors := by
  induction path generalizing e with
  | nil =>
    obtain rfl := Option.some.inj h
    exact List.Subset.refl _
  | cons side path ih =>
    cases e with
    | leaf behavior name t => cases side <;> cases h
    | conditional op left right t =>
      cases side with
      | left => exact List.subset_append_of_subset_left _ (ih h)
      | right => exact List.subset_append_of_subset_right _ (ih h)

theorem exists_below?_of_mem_indices (h : i ∈ e.indices) :
    ∃ path node, e.below? path = some node ∧ i ∈ node.tally.matched := by
  induction e with
  | leaf behavior name t => exact ⟨[], _, rfl, h⟩
  | conditional op left right t ihl ihr =>
    rcases mem_indices_conditional.1 h with h | h | h
    · exact ⟨[], _, rfl, h⟩
    · obtain ⟨path, node, hnode, hi⟩ := ihl h
      exact ⟨.left :: path, node, hnode, hi⟩
    · obtain ⟨path, node, hnode, hi⟩ := ihr h
      exact ⟨.right :: path, node, hnode, hi⟩

theorem AllSourced.mem_indices (h : e.AllSourced fed) (hi : i ∈ e.indices) :
    ∃ event, (event, i) ∈ fed ∧ event.behavior ∈ e.behaviors := by
  obtain ⟨path, node, hnode, hi⟩ := exists_below?_of_mem_indices hi
  obtain ⟨event, hfed, hbehavior⟩ := (h path node hnode).matched i hi
  exact ⟨event, hfed, behaviors_below? hnode hbehavior⟩

theorem AllSourced.mem_collected (h : e.AllSourced fed) {events : List (Event × Nat)}
    (hi : i ∈ (e.feedAll a events).2.indices) :
    i ∈ a.indices ∨ ∃ event, (event, i) ∈ fed ++ events ∧ event.behavior ∈ e.behaviors := by
  induction events generalizing e a fed with
  | nil => exact .inl hi
  | cons pair events ih =>
    obtain ⟨event, index⟩ := pair
    rw [List.append_cons]
    rcases ih (h.feed a index event) hi with hi | ⟨source, hsource, hbehavior⟩
    · rcases (e.feed_advance a index event).collected i hi with hi | hi
      · exact .inl hi
      · obtain ⟨source, hsource, hbehavior⟩ := h.mem_indices hi
        refine .inr ⟨source, ?_, hbehavior⟩
        exact List.mem_append_left _ (List.mem_append_left _ hsource)
    · rw [behaviors_feed] at hbehavior
      exact .inr ⟨source, hsource, hbehavior⟩

theorem scanFrom_eq_feedAll (start : Nat) (progress : Option Progress) (last : Outcome)
    (index : Nat) (e : Expression) (a : Attempt) (events : List Event) :
    let s := e.scanFrom start progress last index a events
    (s.expression, s.carried) = e.feedAll a ((events.zipIdx index).take s.outcomes.length) := by
  induction events generalizing progress last index e a with
  | nil => rfl
  | cons event rest ih =>
    unfold scanFrom
    dsimp only
    split
    · rfl
    · split
      · rfl
      · exact ih _ _ _ _ _

theorem getElem?_of_mem_zipIdx {events : List Event} {start n : Nat}
    (h : (event, i) ∈ ((events.drop start).zipIdx start).take n) : events[i]? = some event := by
  obtain ⟨hle, hevent⟩ := List.mk_mem_zipIdx_iff_le_and_getElem?_sub.1 (List.mem_of_mem_take h)
  rw [List.getElem?_drop] at hevent
  rw [← hevent]
  congr 1
  omega

theorem scan_sourced {start : Nat} {events : List Event}
    (hi : i ∈ (e.reset.scan start a (events.drop start)).attempt.indices) :
    i ∈ a.indices ∨ ∃ event, events[i]? = some event ∧ event.behavior ∈ e.behaviors := by
  have hrun := scanFrom_eq_feedAll start none .invalid start e.reset a (events.drop start)
  have hlimits := reset_scanFrom start none .invalid start e.reset a (events.drop start)
  rw [Scan.attempt_indices] at hi
  unfold scan at hi
  generalize e.reset.scanFrom start none .invalid start a (events.drop start) = s at hi hrun hlimits
  obtain ⟨hexpression, hcarried⟩ := Prod.mk.inj hrun
  have hbehaviors : s.expression.behaviors = e.behaviors := by
    rw [← behaviors_reset, hlimits, behaviors_reset, behaviors_reset]
  rcases Scan.mem_collected hi with hi | hi
  · rw [hcarried] at hi
    rcases e.reset_allSourced.mem_collected hi with hi | ⟨event, hfed, hbehavior⟩
    · exact .inl hi
    · rw [behaviors_reset] at hbehavior
      exact .inr ⟨event, getElem?_of_mem_zipIdx hfed, hbehavior⟩
  · rw [← hbehaviors]
    rw [hexpression] at hi ⊢
    obtain ⟨event, hfed, hbehavior⟩ := (e.reset_allSourced.feedAll a _).mem_indices hi
    exact .inr ⟨event, getElem?_of_mem_zipIdx hfed, hbehavior⟩

end Expression

/-! ## Matches -/

theorem Trial.run_sourced {events rest : List Event} {index resume i : Nat} {a : Attempt}
    {steps : List Expression} {indices : IndexSet} (hrest : events.drop index = rest)
    (h : (run index a rest (steps.map Expression.reset)).verdict = .complete indices resume)
    (hi : i ∈ indices) :
    i ∈ a.indices ∨ ∃ event step, events[i]? = some event ∧ step ∈ steps ∧
      event.behavior ∈ step.behaviors := by
  induction steps generalizing a index rest with
  | nil => simp [run] at h
  | cons step steps ih =>
    subst hrest
    have hstep := @Expression.scan_sourced step a i index events
    cases steps with
    | nil =>
      obtain ⟨-, -, rfl⟩ := run_singleton_complete h
      rcases hstep hi with hi | ⟨event, hevent, hbehavior⟩
      · exact .inl hi
      · exact .inr ⟨event, step, hevent, List.mem_cons_self, hbehavior⟩
    | cons next steps =>
      obtain ⟨-, -, hnext⟩ := run_cons_complete h
      have hanchor := step.reset.start_le_anchor index a (events.drop index)
      rcases ih (drop_rest rfl (Nat.le_succ_of_le hanchor)) hnext with hi | hlater
      · rcases hstep hi with hi | ⟨event, hevent, hbehavior⟩
        · exact .inl hi
        · exact .inr ⟨event, step, hevent, List.mem_cons_self, hbehavior⟩
      · obtain ⟨event, other, hevent, hother, hbehavior⟩ := hlater
        exact .inr ⟨event, other, hevent, List.mem_cons_of_mem _ hother, hbehavior⟩

theorem Pattern.findMatches_sourced {p : Pattern} {events : List Event} {m : List Nat} {i : Nat}
    (hm : m ∈ p.findMatches events) (hi : i ∈ m) :
    ∃ event step, events[i]? = some event ∧ step ∈ p.steps ∧ event.behavior ∈ step.behaviors := by
  obtain ⟨t, ht, hm⟩ := List.mem_filterMap.1 hm
  obtain ⟨-, indices, resume, hverdict, rfl⟩ := Trial.match?_eq_some hm
  obtain ⟨index, rfl⟩ := exists_run_of_mem_trialsFrom List.drop_zero ht
  rcases Trial.run_sourced rfl hverdict hi with hi | hsource
  · exact absurd hi (IndexSet.not_mem_empty i)
  · exact hsource

/-- However events are fed to a tree that has matched nothing, every node holds events that were
fed, each with a behavior of a leaf below it, and no more of them than its count allows. So every
index of a match leads to an event with a behavior of the pattern. -/
theorem Pattern.matched_among_behaviors :
    (∀ (e : Expression) (a : Attempt) (fed : List (Event × Nat)) (path : List Side)
      (node : Expression), (e.reset.feedAll a fed).1.below? path = some node →
        node.Sourced fed) ∧
      ∀ (p : Pattern) (events : List Event), ∀ m ∈ p.findMatches events, ∀ i ∈ m,
        ∃ event step, events[i]? = some event ∧ step ∈ p.steps ∧
          event.behavior ∈ step.behaviors := by
  constructor
  · intro e a fed path node hnode
    have hall := e.reset_allSourced.feedAll a fed
    exact hall path node hnode
  · intro p events m hm i hi
    exact findMatches_sourced hm hi

/-- The events come in no order of time or index, and the root takes in one of each side. -/
theorem Pattern.matched_among_alternatives :
    ∃ (p : Pattern) (step : Expression) (fed : List (Event × Nat)) (events : List Event),
      (parse {} .empty "(A | B)[2]\x7bs 3\x7d => P").1 = .ok p ∧ p.steps = [step] ∧
        (step.reset.feedAll {} fed).1.tally.matched.toList = [3, 5] ∧
          (step.reset.feedAll {} fed).1.Sourced fed ∧ p.findMatches events = [[0, 2]] ∧
            ∃ event step, events[2]? = some event ∧ step ∈ p.steps ∧
              event.behavior ∈ step.behaviors := by
  obtain ⟨p, step, fed, events, hp, hstep, hmatched, hmatches⟩ :
      ∃ (p : Pattern) (step : Expression) (fed : List (Event × Nat)) (events : List Event),
        (parse {} .empty "(A | B)[2]\x7bs 3\x7d => P").1 = .ok p ∧ p.steps = [step] ∧
          (step.reset.feedAll {} fed).1.tally.matched.toList = [3, 5] ∧
            p.findMatches events = [[0, 2]] := by
    refine ⟨_, _, [(⟨⟨1⟩, 2⟩, 5), (⟨⟨2⟩, 3⟩, 1), (⟨⟨0⟩, 2.5⟩, 3)],
      [⟨⟨0⟩, 0⟩, ⟨⟨2⟩, 1⟩, ⟨⟨1⟩, 2⟩], rfl, rfl, ?_, ?_⟩
    · decide +kernel
    · decide +kernel
  obtain ⟨hsourced, hbehaviors⟩ := matched_among_behaviors
  refine ⟨p, step, fed, events, hp, hstep, hmatched, ?_, hmatches, ?_⟩
  · exact hsourced step {} fed [] _ rfl
  · exact hbehaviors p events [0, 2] (by rw [hmatches]; simp) 2 (by simp)

end TimedPattern
