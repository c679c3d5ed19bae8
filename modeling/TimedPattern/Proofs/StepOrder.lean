import TimedPattern.Proofs.Chain

/-!
# Steps in order

A step records only events behind the anchor of the step before. Under `&` an event can matter to
one side without moving the root, and the anchor moves with the root.
-/

namespace TimedPattern

/-! ## Steps whose anchor keeps up -/

/-- Whatever the step has matched so far, an event that any of its nodes records also advances its
root, unless the step fails with it. -/
def Expression.Steady (e : Expression) : Prop :=
  ∀ (f : Expression) (a : Attempt) (index : Nat) (event : Event), f.reset = e.reset →
    index ∈ (f.feed index event a).expression.indices →
      index ∈ f.indices ∨ (f.feed index event a).outcome.isStepped = true ∨
        (f.feed index event a).outcome.isFailure = true

namespace Tally

theorem judge_stepped (t : Tally) :
    (t.judge .stepped).1.isStepped = true ∨ (t.judge .stepped).1.isFailure = true := by
  unfold judge
  split
  · exact .inl rfl
  · split
    · exact .inl rfl
    · split
      · exact .inr rfl
      · exact .inl rfl

theorem settle_stepped (t : Tally) (a : Attempt) (index : Nat) (time : Float) :
    (t.settle a index time .stepped).1.isStepped = true ∨
      (t.settle a index time .stepped).1.isFailure = true := by
  unfold settle
  simp only [ne_eq, not_true, false_and, if_false]
  exact judge_stepped _

theorem settle_uncounted {t : Tally} (h : t.occurrences = none) (a : Attempt) (index : Nat)
    (time : Float) (o : Outcome) :
    (t.settle a index time o).1 = o ∨
      o ≠ .stepped ∧ (t.settle a index time o).1 = .invalid := by
  have hrecord := (t.record_occurrences a index time o).trans h
  unfold settle
  generalize t.record a index time o = r at hrecord ⊢
  dsimp only
  split
  · rename_i hinvalid
    exact .inr ⟨hinvalid.1, rfl⟩
  · left
    unfold judge
    rw [hrecord]

theorem mem_settle_of_ne_stepped (t : Tally) (a : Attempt) (index : Nat) (time : Float)
    {o : Outcome} (ho : o ≠ .stepped) {i : Nat}
    (hi : i ∈ (t.settle a index time o).2.1.matched) : i ∈ t.matched := by
  have hrecord : (t.record a index time o).1 = t := by
    unfold record
    split
    · exact absurd rfl ho
    · rfl
    · rfl
  rcases (t.settle_tally a index time o).1 with h | h
  · rwa [h, hrecord] at hi
  · rw [h] at hi
    exact absurd hi (IndexSet.not_mem_empty i)

end Tally

namespace Expression

theorem mem_expire {e : Expression} {a : Attempt} {i : Nat}
    (hi : i ∈ (e.expire a).expression.indices) : i ∈ e.indices := by
  unfold expire at hi
  split at hi
  · exact hi
  · exact mem_indices_mapTally_forget hi

theorem leaf_steady (behavior : BehaviorId) (name : String) (t : Tally) :
    (leaf behavior name t).Steady := by
  intro f a index event hf hi
  cases f with
  | conditional op left right u => simp [reset] at hf
  | leaf b n u =>
    unfold feed at hi ⊢
    split at hi
    · exact .inl hi
    · exact .inl (mem_expire hi)
    · split
      · exact .inr (u.settle_stepped a index event.time)
      · rename_i hbehavior
        rw [if_neg hbehavior] at hi
        exact .inl (u.mem_settle_of_ne_stepped a index event.time (by simp) hi)

/-- Alternatives that nothing below the root counts. -/
def Uncounted : Expression → Prop
  | leaf _ _ t => t.occurrences = none
  | conditional op left right t =>
    op = .or ∧ t.occurrences = none ∧ left.Uncounted ∧ right.Uncounted

theorem uncounted_reset (e : Expression) : e.reset.Uncounted ↔ e.Uncounted := by
  induction e with
  | leaf behavior name t => exact Iff.rfl
  | conditional op left right t ihl ihr =>
    simp only [reset, Uncounted, Tally.forget, ihl, ihr]

theorem Uncounted.isSatisfied {e : Expression} (h : e.Uncounted) : e.isSatisfied = false := by
  induction e with
  | leaf behavior name t =>
    have h : t.occurrences = none := h
    simp [Expression.isSatisfied, h]
  | conditional op left right t ihl ihr =>
    obtain ⟨rfl, hoccurrences, hl, hr⟩ := h
    simp [Expression.isSatisfied, hoccurrences, ihl hl, ihr hr]

/-- What an event does to alternatives without counts: it is never a place to stop, and if they
record it, they say so. -/
structure Speaks (e : Expression) (index : Nat) (f : Fed) : Prop where
  rank : 3 ≤ f.outcome.rank
  recorded : index ∈ f.expression.indices → index ∈ e.indices ∨ f.outcome = .stepped

theorem Speaks.join_stepped {left right : Expression} {index : Nat} {l r : Fed}
    (hl : left.Speaks index l) (hr : right.Speaks index r)
    (h : index ∈ l.expression.indices ∨ index ∈ r.expression.indices) :
    (index ∈ left.indices ∨ index ∈ right.indices) ∨
      Operator.or.join l.outcome r.outcome = .stepped := by
  have hl3 := hl.rank
  have hr3 := hr.rank
  have hjoin (h : l.outcome.rank = 3 ∨ r.outcome.rank = 3) :
      Operator.or.join l.outcome r.outcome = .stepped := by
    apply Outcome.rank_injective
    show (l.outcome.better r.outcome).rank = 3
    rw [Outcome.rank_better]
    omega
  rcases h with h | h
  · rcases hl.recorded h with h | h
    · exact .inl (.inl h)
    · exact .inr (hjoin (.inl (congrArg Outcome.rank h)))
  · rcases hr.recorded h with h | h
    · exact .inl (.inr h)
    · exact .inr (hjoin (.inr (congrArg Outcome.rank h)))

theorem Uncounted.expire_speaks {e : Expression} (h : e.Uncounted) (a : Attempt) (index : Nat) :
    e.Speaks index (e.expire a) := by
  refine ⟨?_, fun hi => .inl (mem_expire hi)⟩
  unfold expire
  simp [h.isSatisfied, Outcome.rank]

theorem Speaks.settle {e : Expression} {t : Tally} {f : Fed} {a : Attempt} {index : Nat}
    {time : Float} {o : Outcome} (ht : t.occurrences = none)
    (hf : f.outcome = (t.settle a index time o).1) (ho : 3 ≤ o.rank)
    (h : index ∈ f.expression.indices → index ∈ e.indices ∨ o = .stepped) :
    e.Speaks index f := by
  rcases Tally.settle_uncounted ht a index time o with hsettle | ⟨hne, hsettle⟩
  · rw [hsettle] at hf
    exact ⟨by rw [hf]; exact ho, fun hi => (h hi).imp_right fun hstepped => hf.trans hstepped⟩
  · rw [hsettle] at hf
    refine ⟨by rw [hf]; decide, fun hi => .inl ((h hi).resolve_right hne)⟩

theorem Uncounted.feed_speaks {e : Expression} (h : e.Uncounted) (a : Attempt) (index : Nat)
    (event : Event) : e.Speaks index (e.feed index event a) := by
  induction e generalizing a with
  | leaf behavior name t =>
    unfold feed
    split
    · exact ⟨by simp [Outcome.rank], fun hi => .inl hi⟩
    · exact h.expire_speaks a index
    · split
      · exact .settle h rfl (by decide) fun _ => .inr rfl
      · refine .settle h rfl (by decide) fun hi => .inl ?_
        exact t.mem_settle_of_ne_stepped a index event.time (by simp) hi
  | conditional op left right t ihl ihr =>
    obtain ⟨rfl, ht, hl, hr⟩ := h
    unfold feed
    split
    · exact ⟨by simp [Outcome.rank], fun hi => .inl hi⟩
    · exact Uncounted.expire_speaks (e := conditional .or left right t) ⟨rfl, ht, hl, hr⟩ a index
    · have hl := ihl hl a
      have hr := ihr hr (left.feed index event a).attempt
      dsimp only
      generalize left.feed index event a = l at hl hr ⊢
      generalize right.feed index event l.attempt = r at hr ⊢
      refine .settle ht rfl ?_ fun hi => ?_
      · show 3 ≤ (l.outcome.better r.outcome).rank
        have hl := hl.rank
        have hr := hr.rank
        rw [Outcome.rank_better]
        omega
      -- If the root does not step, neither side has taken the event in.
      · by_cases ho : Operator.or.join l.outcome r.outcome = .stepped
        · exact .inr ho
        · left
          rw [mem_indices_conditional] at hi ⊢
          rcases hi with hi | hi
          · exact .inl (t.mem_settle_of_ne_stepped r.attempt index event.time ho hi)
          · exact .inr ((hl.join_stepped hr hi).resolve_right ho)

theorem alternatives_steady {left right : Expression} (hl : left.Uncounted)
    (hr : right.Uncounted) (t : Tally) : (conditional .or left right t).Steady := by
  intro f a index event hf hi
  cases f with
  | leaf behavior name u => simp [reset] at hf
  | conditional op fl fr u =>
    obtain ⟨rfl, hfl, hfr, -⟩ := conditional.inj hf
    have hl : fl.Uncounted := by rwa [← uncounted_reset, hfl, uncounted_reset]
    have hr : fr.Uncounted := by rwa [← uncounted_reset, hfr, uncounted_reset]
    unfold feed at hi ⊢
    split at hi
    · exact .inl hi
    · exact .inl (mem_expire hi)
    · have hl := hl.feed_speaks a index event
      have hr := hr.feed_speaks (fl.feed index event a).attempt index event
      dsimp only at hi ⊢
      generalize fl.feed index event a = l at hl hr hi ⊢
      generalize fr.feed index event l.attempt = r at hr hi ⊢
      by_cases ho : Operator.or.join l.outcome r.outcome = .stepped
      · right
        rw [ho]
        exact u.settle_stepped r.attempt index event.time
      · left
        rw [mem_indices_conditional] at hi ⊢
        rcases hi with hi | hi
        · exact .inl (u.mem_settle_of_ne_stepped r.attempt index event.time ho hi)
        · exact .inr ((hl.join_stepped hr hi).resolve_right ho)

/-! ## Scans -/

theorem scanFrom_indices {start index : Nat} {progress : Option Progress} {last : Outcome}
    {e : Expression} {a : Attempt} {events : List Event} :
    ∀ i ∈ (e.scanFrom start progress last index a events).expression.indices,
      i ∈ e.indices ∨ index ≤ i := by
  induction events generalizing progress last index e a with
  | nil => exact fun i hi => .inl hi
  | cons event rest ih =>
    have hmatched := (e.feed_frame a index event).matched
    intro i hi
    unfold scanFrom at hi
    dsimp only at hi
    have hfed (h : i ∈ (e.feed index event a).expression.indices) : i ∈ e.indices ∨ index ≤ i :=
      (hmatched i h).imp_right fun h => Nat.le_of_eq h.symm
    split at hi
    · exact hfed hi
    · split at hi
      · exact hfed hi
      · rcases ih i hi with h | h
        · exact hfed h
        · exact .inr (by omega)

theorem scanFrom_behind_anchor {start index : Nat} {progress : Option Progress} {last : Outcome}
    {e : Expression} {a : Attempt} {events : List Event} (hsteady : e.Steady)
    (hbehind : ∀ i ∈ e.indices, ∃ p, progress = some p ∧ i ≤ p.index)
    (hahead : ∀ p, progress = some p → p.index < index)
    (h : (e.scanFrom start progress last index a events).isSatisfied = true) :
    ∀ i ∈ (e.scanFrom start progress last index a events).expression.indices,
      i ≤ (e.scanFrom start progress last index a events).anchor := by
  induction events generalizing progress last index e a with
  | nil =>
    intro i hi
    obtain ⟨p, hp, hle⟩ := hbehind i hi
    unfold scanFrom Scan.anchor
    rw [hp]
    exact hle
  | cons event rest ih =>
    have hframe := e.feed_frame a index event
    have hrecorded := hsteady e a index event rfl
    have hfailure := not_isFailure_of_isSatisfied h
    unfold scanFrom at h ⊢
    dsimp only at h ⊢
    rw [if_neg hfailure] at h ⊢
    split
    · rename_i hcompleted
      rw [hcompleted] at hrecorded
      intro i hi
      -- The event that completes the step is not recorded, so the anchor need not move.
      have hi : i ∈ e.indices := by
        rcases hframe.matched i hi with hi' | rfl
        · exact hi'
        · exact (hrecorded hi).resolve_right (by simp [Outcome.isStepped, Outcome.isFailure])
      obtain ⟨p, hp, hle⟩ := hbehind i hi
      unfold Scan.anchor
      rw [hp]
      exact hle
    · rename_i hgoes
      rw [if_neg hgoes] at h
      refine ih ?_ ?_ ?_ h
      · intro f b j ev hf
        exact hsteady f b j ev (hf.trans hframe.limits)
      · intro i hi
        split
        · refine ⟨_, rfl, ?_⟩
          show i ≤ index
          rcases hframe.matched i hi with hi | hi
          · obtain ⟨p, hp, hle⟩ := hbehind i hi
            have := hahead p hp
            omega
          · exact Nat.le_of_eq hi
        · rename_i hstepped
          rcases hframe.matched i hi with hi' | rfl
          · exact hbehind i hi'
          -- A steady step records nothing new unless its root steps.
          · rcases hrecorded hi with hi | hi | hi
            · exact hbehind i hi
            · exact absurd hi hstepped
            · exact absurd hi hfailure
      · intro p hp
        split at hp
        · obtain rfl := Option.some.inj hp
          exact Nat.lt_succ_self index
        · have := hahead p hp
          omega

theorem scanFrom_start_le_anchor {start index : Nat} {progress : Option Progress}
    {last : Outcome} {e : Expression} {a : Attempt} {events : List Event}
    (hprogress : ∀ p, progress = some p → start ≤ p.index) (hstart : start ≤ index) :
    start ≤ (e.scanFrom start progress last index a events).anchor := by
  have hdone (p : Option Progress) (hp : ∀ q, p = some q → start ≤ q.index) :
      start ≤ (p.map Progress.index).getD start := by
    cases p with
    | none => exact Nat.le_refl start
    | some q => exact hp q rfl
  induction events generalizing progress last index e a with
  | nil => exact hdone progress hprogress
  | cons event rest ih =>
    unfold scanFrom
    dsimp only
    split
    · exact hdone progress hprogress
    · split
      · exact hdone progress hprogress
      · refine ih ?_ (by omega)
        intro p hp
        split at hp
        · obtain rfl := Option.some.inj hp
          exact hstart
        · exact hprogress p hp

theorem start_le_anchor (e : Expression) (start : Nat) (a : Attempt) (events : List Event) :
    start ≤ (e.scan start a events).anchor :=
  scanFrom_start_le_anchor (by simp) (Nat.le_refl start)

end Expression

/-! ## Trials -/

namespace Trial

variable {index : Nat} {a : Attempt} {events : List Event} {step : Expression}
variable {steps : List Expression}

theorem scans_run_cons (index : Nat) (a : Attempt) (events : List Event) (step : Expression)
    (steps : List Expression) :
    (run index a events (step :: steps)).scans = [] ∨
      (run index a events (step :: steps)).scans = [step.scan index a events] ∨
      (step.scan index a events).isSatisfied = true ∧ steps ≠ [] ∧
        (run index a events (step :: steps)).scans = step.scan index a events ::
          (run ((step.scan index a events).anchor + 1) (step.scan index a events).attempt
            (events.drop ((step.scan index a events).anchor + 1 - index)) steps).scans := by
  unfold run
  split
  · exact .inl rfl
  · dsimp only
    split
    · rename_i hsatisfied
      cases steps with
      | nil => exact .inr (.inl rfl)
      | cons next steps =>
        right; right
        have hresume : (step.scan index a events).resume false =
            (step.scan index a events).anchor + 1 := by simp [Scan.resume]
        rw [← hresume]
        exact ⟨hsatisfied, by simp, rfl⟩
    · exact .inr (.inl rfl)

theorem run_from (hfresh : ∀ step ∈ steps, ∀ i, ¬ i ∈ step.indices) :
    ∀ s ∈ (run index a events steps).scans, ∀ i ∈ s.expression.indices, index ≤ i := by
  induction steps generalizing index a events with
  | nil => simp [run]
  | cons step steps ih =>
    have hstep : ∀ i ∈ (step.scan index a events).expression.indices, index ≤ i := by
      intro i hi
      exact (Expression.scanFrom_indices i hi).resolve_left (hfresh step (by simp) i)
    intro s hs i hi
    rcases scans_run_cons index a events step steps with h | h | ⟨-, -, h⟩ <;> rw [h] at hs
    · exact absurd hs List.not_mem_nil
    · obtain rfl := List.mem_singleton.1 hs
      exact hstep i hi
    · rcases List.mem_cons.1 hs with rfl | hs
      · exact hstep i hi
      · have hle := ih (fun step h => hfresh step (by simp [h])) s hs i hi
        have hanchor := step.start_le_anchor index a events
        omega

theorem run_anchored (hfresh : ∀ step ∈ steps, ∀ i, ¬ i ∈ step.indices) :
    (run index a events steps).scans.Pairwise fun s u =>
      ∀ i ∈ u.expression.indices, s.anchor < i := by
  induction steps generalizing index a events with
  | nil => simp [run]
  | cons step steps ih =>
    have hfresh : ∀ step ∈ steps, ∀ i, ¬ i ∈ step.indices :=
      fun step h => hfresh step (by simp [h])
    rcases scans_run_cons index a events step steps with h | h | ⟨-, -, h⟩ <;> rw [h]
    · exact .nil
    · exact List.pairwise_singleton _ _
    · exact List.pairwise_cons.2 ⟨fun u hu i hi => run_from hfresh u hu i hi, ih hfresh⟩

theorem run_in_order (hfresh : ∀ step ∈ steps, ∀ i, ¬ i ∈ step.indices)
    (hsteady : ∀ step ∈ steps.dropLast, step.Steady) :
    (run index a events steps).scans.Pairwise fun s u =>
      ∀ i ∈ s.expression.indices, ∀ j ∈ u.expression.indices, i < j := by
  induction steps generalizing index a events with
  | nil => simp [run]
  | cons step steps ih =>
    have hrest : ∀ step ∈ steps, ∀ i, ¬ i ∈ step.indices :=
      fun step h => hfresh step (by simp [h])
    rcases scans_run_cons index a events step steps with h | h | ⟨hsatisfied, hne, h⟩ <;> rw [h]
    · exact .nil
    · exact List.pairwise_singleton _ _
    · rw [List.dropLast_cons_of_ne_nil hne] at hsteady
      refine List.pairwise_cons.2 ⟨?_, ih hrest fun step h => hsteady step (by simp [h])⟩
      intro u hu i hi j hj
      have hi := Expression.scanFrom_behind_anchor (hsteady step (by simp))
        (fun i hi => absurd hi (hfresh step (by simp) i)) (by simp) hsatisfied i hi
      have hj := run_from hrest u hu j hj
      exact Nat.lt_of_le_of_lt hi hj

end Trial

/-! ## Patterns -/

namespace Pattern

theorem steady_reset {steps : List Expression} (h : ∀ step ∈ steps.dropLast, step.Steady) :
    ∀ step ∈ (steps.map Expression.reset).dropLast, step.Steady := by
  intro step hstep f a i event hf
  rw [← List.map_dropLast] at hstep
  obtain ⟨source, hsource, rfl⟩ := List.mem_map.1 hstep
  exact h source hsource f a i event (hf.trans source.reset_reset)

/-- Every step records its events behind the anchors of the steps before it. So the steps take their
events one after the other if the anchor of each step but the last keeps up with what it records. -/
theorem trials_in_order (p : Pattern) (events : List Event) :
    ∀ t ∈ p.trials events,
      (t.scans.Pairwise fun s u => ∀ j ∈ u.expression.indices, s.anchor < j) ∧
        ((∀ step ∈ p.steps.dropLast, step.Steady) →
          t.scans.Pairwise fun s u =>
            ∀ i ∈ s.expression.indices, ∀ j ∈ u.expression.indices, i < j) := by
  intro t ht
  obtain ⟨index, rfl⟩ := exists_run_of_mem_trialsFrom List.drop_zero ht
  constructor
  · exact Trial.run_anchored p.reset_steps_fresh
  · intro hsteady
    exact Trial.run_in_order p.reset_steps_fresh (steady_reset hsteady)

theorem trials_in_order_alternatives :
    ∃ (p : Pattern) (events : List Event),
      (parse {} .empty "(A | B)[2] -> C -> D => P").1 = .ok p ∧
        p.findMatches events = [[0, 1, 3, 4]] ∧ (∀ step ∈ p.steps.dropLast, step.Steady) ∧
          ∀ t ∈ p.trials events, t.scans.Pairwise fun s u =>
            ∀ i ∈ s.expression.indices, ∀ j ∈ u.expression.indices, i < j := by
  obtain ⟨p, events, hp, hmatches, hsteady⟩ : ∃ (p : Pattern) (events : List Event),
      (parse {} .empty "(A | B)[2] -> C -> D => P").1 = .ok p ∧
        p.findMatches events = [[0, 1, 3, 4]] ∧ ∀ step ∈ p.steps.dropLast, step.Steady := by
    refine ⟨_, [⟨⟨0⟩, 0⟩, ⟨⟨1⟩, 0.2⟩, ⟨⟨3⟩, 0.3⟩, ⟨⟨2⟩, 0.4⟩, ⟨⟨3⟩, 0.6⟩], rfl,
      by decide +kernel, ?_⟩
    rintro step (_ | ⟨_, _ | ⟨_, ⟨⟩⟩⟩)
    · apply Expression.alternatives_steady
      · exact rfl
      · exact rfl
    · exact Expression.leaf_steady _ _ _
  exact ⟨p, events, hp, hmatches, hsteady, fun t ht => (trials_in_order p events t ht).2 hsteady⟩

/-- Under `&` the second side can come after the event of the next step. The root does not move with
it, so the next step finds its event in between. -/
theorem trials_out_of_order :
    ∃ (p : Pattern) (events : List Event),
      (parse {} .empty "A & B -> C => P").1 = .ok p ∧ p.findMatches events = [[0, 1, 2]] ∧
        ∃ t ∈ p.trials events, ∃ s u, t.scans = [s, u] ∧ s.isSatisfied = true ∧
          s.expression.indices.toList = [0, 2] ∧ u.expression.indices.toList = [1] := by
  refine ⟨_, [⟨⟨0⟩, 0⟩, ⟨⟨2⟩, 0.2⟩, ⟨⟨1⟩, 0.4⟩], rfl, rfl, _, List.mem_cons_self .., _, _, rfl, rfl,
    rfl, rfl⟩

end Pattern

end TimedPattern
