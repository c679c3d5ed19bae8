import TimedPattern.Proofs.Clock
import TimedPattern.Proofs.Simulation

/-!
# The order of the sides

The sides of a conditional can change places once windows are measured from some moment. On the
event that opens an attempt, the left side is fed without a baseline and the right one maybe with
it.
-/

open List (Forall₂)

namespace TimedPattern

namespace Expression

/-- The same tree, up to the order of the sides of its conditionals. -/
inductive Swapped : Expression → Expression → Prop
  | leaf (behavior : BehaviorId) (name : String) (t : Tally) :
    Swapped (leaf behavior name t) (leaf behavior name t)
  | keep {op : Operator} {left right left' right' : Expression} (t : Tally) :
    Swapped left left' → Swapped right right' →
      Swapped (conditional op left right t) (conditional op left' right' t)
  | swap {op : Operator} {left right left' right' : Expression} (t : Tally) :
    Swapped left left' → Swapped right right' →
      Swapped (conditional op left right t) (conditional op right' left' t)

namespace Swapped

variable {e f : Expression}

theorem refl (e : Expression) : e.Swapped e := by
  induction e with
  | leaf behavior name t => exact .leaf behavior name t
  | conditional op left right t ihl ihr => exact .keep t ihl ihr

theorem reset (h : e.Swapped f) : e.reset.Swapped f.reset := by
  induction h with
  | leaf behavior name t => exact .leaf behavior name t.forget
  | keep t _ _ ihl ihr => exact .keep t.forget ihl ihr
  | swap t _ _ ihl ihr => exact .swap t.forget ihl ihr

theorem indices (h : e.Swapped f) : e.indices = f.indices := by
  induction h with
  | leaf => rfl
  | keep t _ _ ihl ihr => simp only [Expression.indices, ihl, ihr]
  | swap t _ _ ihl ihr =>
    ext i
    rw [mem_indices_conditional, mem_indices_conditional, ihl, ihr]
    tauto

theorem isSatisfied (h : e.Swapped f) : e.isSatisfied = f.isSatisfied := by
  induction h with
  | leaf => rfl
  | keep t _ _ ihl ihr => simp only [Expression.isSatisfied, ihl, ihr]
  | swap t _ _ ihl ihr =>
    simp only [Expression.isSatisfied, ihl, ihr, Bool.and_comm, Bool.or_comm]

theorem mapTally (h : e.Swapped f) (g : Tally → Tally) : (e.mapTally g).Swapped (f.mapTally g) := by
  cases h with
  | leaf behavior name t => exact .leaf behavior name (g t)
  | keep t hl hr => exact .keep (g t) hl hr
  | swap t hl hr => exact .swap (g t) hl hr

end Swapped

/-! ## Ceilings -/

theorem ceiling_not_isNaN {e : Expression} {c : Float} (h : e.ceiling = some c) :
    c.isNaN = false := by
  induction e generalizing c with
  | leaf behavior name t =>
    obtain ⟨window, -, rfl⟩ := Option.map_eq_some_iff.1 h
    exact (isNaN_of_le window.zero_le_maximum).2
  | conditional op left right t ihl ihr =>
    unfold ceiling at h
    split at h
    · rename_i window _
      obtain rfl := Option.some.inj h
      exact (isNaN_of_le window.zero_le_maximum).2
    · rename_i l r _ hl hr
      obtain rfl := Option.some.inj h
      rcases later_eq_or l r with h | h <;> rw [h]
      · exact ihl hl
      · exact ihr hr
    · cases hl : left.ceiling with
      | some l =>
        rw [hl] at h
        exact ihl (hl.trans h)
      | none =>
        rw [hl] at h
        exact ihr h

theorem Swapped.ceiling {e f : Expression} (h : e.Swapped f) :
    Option.Rel SameNumber e.ceiling f.ceiling := by
  induction h with
  | leaf behavior name t =>
    unfold Expression.ceiling
    cases t.timing with
    | none => exact .none
    | some window => exact .some (.refl _)
  | @keep op left right left' right' t _ _ ihl ihr =>
    unfold Expression.ceiling
    generalize left.ceiling = l, left'.ceiling = l', right.ceiling = r, right'.ceiling = r' at *
    cases t.timing with
    | some window => exact .some (.refl _)
    | none =>
      cases ihl with
      | none => exact ihr
      | some hl =>
        cases ihr with
        | none => exact .some hl
        | some hr => exact .some (hl.later hr)
  | @swap op left right left' right' t _ _ ihl ihr =>
    have hleft := @ceiling_not_isNaN left'
    have hright := @ceiling_not_isNaN right'
    unfold Expression.ceiling
    generalize left.ceiling = l, left'.ceiling = l', right.ceiling = r, right'.ceiling = r' at *
    cases t.timing with
    | some window => exact .some (.refl _)
    | none =>
      cases ihl with
      | none => cases ihr with
        | none => exact .none
        | some hr => exact .some hr
      | some hl =>
        cases ihr with
        | none => exact .some hl
        -- Which of two zeros is the later one depends on the order.
        | some hr => exact .some ((hl.later hr).trans (later_comm (hleft rfl) (hright rfl)))

end Expression

/-! ## Feeding with a running clock -/

section Feeding

variable {baseline : Float} {deadline : Option Float}

namespace Expression

variable {index : Nat} {event : Event} {e f : Expression}

theorem Swapped.tally (h : e.Swapped f) : e.tally = f.tally := by
  cases h <;> rfl

theorem Swapped.feed_outside (h : e.Swapped f)
    (hphase : (⟨some baseline, deadline, ∅⟩ : Attempt).phase event.time e.tally.timing ≠ .inside) :
    ∃ o e' f' s, e'.Swapped f' ∧ e.Feeds baseline deadline index event o e' s ∧
      f.Feeds baseline deadline index event o f' s := by
  cases hp : (⟨some baseline, deadline, ∅⟩ : Attempt).phase event.time e.tally.timing with
  | inside => exact absurd hp hphase
  | early =>
    refine ⟨.beforeTime, e, f, ∅, h, fun a ha => ?_, fun a ha => ?_⟩
    · exact feed_early ((ha.phase _ _).trans hp)
    · exact feed_early ((ha.phase _ _).trans (h.tally ▸ hp))
  | late =>
    have he (a : Attempt) (ha : a.Clocked baseline deadline) :
        e.feed index event a = e.expire a := feed_late ((ha.phase _ _).trans hp)
    have hf (a : Attempt) (ha : a.Clocked baseline deadline) :
        f.feed index event a = f.expire a := feed_late ((ha.phase _ _).trans (h.tally ▸ hp))
    unfold expire at he hf
    rw [← h.isSatisfied] at hf
    by_cases hsatisfied : e.isSatisfied = true
    · simp only [hsatisfied, if_true] at he hf
      rw [← h.indices] at hf
      exact ⟨.completed, e, f, e.indices, h, he, hf⟩
    · simp only [hsatisfied] at he hf
      exact ⟨.canceled, _, _, ∅, h.mapTally Tally.forget, he, hf⟩

theorem Swapped.feed (h : e.Swapped f) :
    ∃ o e' f' s, e'.Swapped f' ∧ e.Feeds baseline deadline index event o e' s ∧
      f.Feeds baseline deadline index event o f' s := by
  induction h with
  | leaf behavior name t =>
    by_cases hphase :
        (⟨some baseline, deadline, ∅⟩ : Attempt).phase event.time t.timing = .inside
    · obtain ⟨o, u, s, hsettle⟩ := t.settle_clocked baseline deadline index event.time
        (if behavior = event.behavior then .stepped else .skipped)
      have hfeed : (Expression.leaf behavior name t).Feeds baseline deadline index event o
          (.leaf behavior name u) s := by
        intro a ha
        unfold Expression.feed
        rw [ha.phase, hphase]
        dsimp only
        rw [hsettle a ha]
      exact ⟨o, _, _, s, .leaf behavior name u, hfeed, hfeed⟩
    · exact (Swapped.leaf behavior name t).feed_outside hphase
  | @keep op left right left' right' t hl hr ihl ihr =>
    by_cases hphase :
        (⟨some baseline, deadline, ∅⟩ : Attempt).phase event.time t.timing = .inside
    · obtain ⟨ol, le, lf, sl, hle, hel, hfl⟩ := ihl
      obtain ⟨or, re, rf, sr, hre, her, hfr⟩ := ihr
      obtain ⟨o, u, s, hsettle⟩ :=
        t.settle_clocked baseline deadline index event.time (op.join ol or)
      exact ⟨o, _, _, sl ∪ sr ∪ s, .keep u hle hre, .conditional hphase hel her hsettle,
        .conditional hphase hfl hfr hsettle⟩
    · exact (Swapped.keep t hl hr).feed_outside hphase
  | @swap op left right left' right' t hl hr ihl ihr =>
    by_cases hphase :
        (⟨some baseline, deadline, ∅⟩ : Attempt).phase event.time t.timing = .inside
    · obtain ⟨ol, le, lf, sl, hle, hel, hfl⟩ := ihl
      obtain ⟨or, re, rf, sr, hre, her, hfr⟩ := ihr
      obtain ⟨o, u, s, hsettle⟩ :=
        t.settle_clocked baseline deadline index event.time (op.join ol or)
      -- Each side does the same whatever the other one has collected before it.
      refine ⟨o, _, _, sl ∪ sr ∪ s, .swap u hle hre, .conditional hphase hel her hsettle, ?_⟩
      rw [IndexSet.union_comm sl sr]
      rw [op.join_comm] at hsettle
      exact .conditional hphase hfr hfl hsettle
    · exact (Swapped.swap t hl hr).feed_outside hphase

end Expression

end Feeding

/-- Two runs on swapped trees, from the moment when the clock runs. -/
def Expression.swapping : Simulation where
  tree := Swapped
  attempt a b := ∃ baseline deadline, a.Clocked baseline deadline ∧ b.Clocked baseline deadline ∧
    a.indices = b.indices
  event := Eq
  time := by
    rintro x _ rfl
    rfl
  indices h := h.indices
  collected := by
    rintro a b ⟨-, -, -, -, h⟩
    exact h
  collect := by
    rintro a b s ⟨baseline, deadline, ha, hb, h⟩
    refine ⟨baseline, deadline, ha.collect s, hb.collect s, ?_⟩
    exact congrArg (· ∪ s) h
  handOver := by
    rintro e f a b time hef ⟨baseline, deadline, ha, hb, h⟩
    refine ⟨time, _, ha.handOver (Swapped.refl e).ceiling time, hb.handOver hef.ceiling time, ?_⟩
    rw [Attempt.indices_handOver, Attempt.indices_handOver, h]
  outcome := by
    rintro e f a b x _ index hef ⟨baseline, deadline, ha, hb, -⟩ rfl
    obtain ⟨o, e', f', s, -, he, hf⟩ := hef.feed
    rw [he a ha, hf b hb]
  fed := by
    rintro e f a b x _ index hef ⟨baseline, deadline, ha, hb, -⟩ rfl
    obtain ⟨o, e', f', s, h, he, hf⟩ := hef.feed
    rw [he a ha, hf b hb]
    exact h
  carried := by
    rintro e f a b x _ index hef ⟨baseline, deadline, ha, hb, h⟩ rfl
    obtain ⟨o, e', f', s, -, he, hf⟩ := hef.feed
    rw [he a ha, hf b hb]
    exact ⟨baseline, deadline, ha.collect s, hb.collect s, congrArg (· ∪ s) h⟩

theorem Expression.swapping_attempt_refl {a : Attempt} (h : a.baseline ≠ none) :
    Expression.swapping.attempt a a := by
  obtain ⟨baseline, hbaseline⟩ := Option.ne_none_iff_exists'.1 h
  have hclocked : a.Clocked baseline a.deadline := by
    refine ⟨hbaseline, ?_⟩
    cases a.deadline with
    | none => exact .none
    | some deadline => exact .some (.refl deadline)
  exact ⟨baseline, a.deadline, hclocked, hclocked, rfl⟩

/-! ## The event that opens an attempt -/

/-- Two trees that do the same with the event that opens an attempt, up to the order of sides. -/
def Expression.OpensLike (e f : Expression) : Prop :=
  ∀ (index : Nat) (event : Event),
    (e.feed index event {}).outcome = (f.feed index event {}).outcome ∧
      ((e.feed index event {}).outcome.isFailure = false →
        (e.feed index event {}).expression.Swapped (f.feed index event {}).expression ∧
          (e.feed index event {}).attempt = (f.feed index event {}).attempt)

theorem Expression.OpensLike.refl (e : Expression) : e.OpensLike e :=
  fun _ _ => ⟨rfl, fun _ => ⟨.refl _, rfl⟩⟩

/-! ## Alternatives that open alike -/

/-- Without any event the count is not met, and one event does not exceed it. -/
def Tally.Required (t : Tally) : Prop :=
  ∀ range, t.occurrences = some range →
    Float.ofNat 0 < range.minimum ∧ ¬ range.maximum < Float.ofNat 1

namespace Tally

theorem Required.judge_shown {t : Tally} (ht : t.Required) (h : t.count = 1) :
    (t.judge .stepped).1.rank ≤ 3 := by
  unfold judge
  cases hrange : t.occurrences with
  | none => exact Nat.le_refl 3
  | some range =>
    dsimp only
    rw [h, if_neg (ht range hrange).2]
    split <;> simp [Outcome.rank]

theorem Required.judge_waiting {t : Tally} (ht : t.Required) (h : t.count = 0) :
    3 < (t.judge .skipped).1.rank ∧ (t.judge .skipped).2 = t := by
  unfold judge
  cases hrange : t.occurrences with
  | none => exact ⟨Nat.lt_succ_self 3, rfl⟩
  | some range =>
    dsimp only
    rw [h, if_pos (ht range hrange).1]
    exact ⟨by simp [Outcome.rank], rfl⟩

end Tally

namespace Expression

variable {behavior : BehaviorId} {t : Tally} {event : Event}

theorem feed_shown (name : String) (index : Nat) (ht : t.Required)
    (h : behavior = event.behavior) :
    ∃ o u, o.rank ≤ 3 ∧
      (leaf behavior name t.forget).feed index event {} =
        ⟨o, leaf behavior name u, ({} : Attempt).start event.time⟩ := by
  let counted : Tally := { t.forget with matched := t.forget.matched.insert index }
  have hcounted : counted.Required := ht
  refine ⟨_, (counted.judge .stepped).2, hcounted.judge_shown rfl, ?_⟩
  unfold feed
  rw [Attempt.phase_unset rfl, if_pos h]
  simp only [Tally.settle, Tally.record, ne_eq, not_true, false_and, if_false]
  rfl

theorem feed_other (name : String) (t : Tally) (index : Nat) (h : behavior ≠ event.behavior) :
    (leaf behavior name t).feed index event {} = ⟨.invalid, leaf behavior name t, {}⟩ := by
  unfold feed
  rw [Attempt.phase_unset rfl, if_neg h]
  rfl

theorem feed_waiting (name : String) (index : Nat) (ht : t.Required)
    (h : behavior ≠ event.behavior) :
    ∃ o : Outcome, 3 < o.rank ∧
      (leaf behavior name t.forget).feed index event (({} : Attempt).start event.time) =
        ⟨o, leaf behavior name t.forget, ({} : Attempt).start event.time⟩ := by
  have hlate : (({} : Attempt).start event.time).phase event.time t.forget.timing ≠ .late := by
    cases hwindow : t.forget.timing with
    | none => simp [Attempt.phase]
    | some window =>
      have hnot := not_lt_sub_self window.zero_le_maximum event.time
      show (if event.time - event.time < window.minimum then Phase.early
        else if window.maximum < event.time - event.time then .late else .inside) ≠ .late
      rw [if_neg hnot]
      split <;> simp
  cases hphase : (({} : Attempt).start event.time).phase event.time t.forget.timing with
  | late => exact absurd hphase hlate
  | early => exact ⟨.beforeTime, by decide, feed_early hphase⟩
  | inside =>
    have hforgotten : t.forget.Required := ht
    obtain ⟨hrank, hforget⟩ := hforgotten.judge_waiting rfl
    refine ⟨_, hrank, ?_⟩
    unfold feed
    rw [hphase, if_neg h]
    simp only [Tally.settle, Tally.record, Attempt.start, hforget]
    simp

theorem alternatives_feed {b c : BehaviorId} {n m : String} {t u : Tally} (ht : t.Required)
    (hu : u.Required) (v : Tally) (index : Nat) (hb : b = event.behavior)
    (hc : c ≠ event.behavior) :
    ∃ o e f a, e.Swapped f ∧ f.Swapped e ∧
      (conditional .or (leaf b n t) (leaf c m u) v).reset.feed index event {} = ⟨o, e, a⟩ ∧
      (conditional .or (leaf c m u) (leaf b n t) v).reset.feed index event {} = ⟨o, f, a⟩ := by
  obtain ⟨ob, w, hle, hshown⟩ := feed_shown n index ht hb
  obtain ⟨oc, hlt, hwaiting⟩ := feed_waiting m index hu hc
  have hother := feed_other m u.forget index hc
  have hfirst : Operator.or.join ob oc = ob := if_neg (by omega)
  have hsecond : Operator.or.join .invalid ob = ob := if_pos (Nat.lt_of_le_of_lt hle (by decide))
  let settled := v.forget.settle (({} : Attempt).start event.time) index event.time ob
  refine ⟨settled.1, conditional .or (leaf b n w) (leaf c m u.forget) settled.2.1,
    conditional .or (leaf c m u.forget) (leaf b n w) settled.2.1, settled.2.2,
    .swap _ (.leaf ..) (.leaf ..), .swap _ (.leaf ..) (.leaf ..), ?_, ?_⟩
  · unfold reset
    rw [feed, Attempt.phase_unset rfl]
    dsimp only [reset]
    rw [hshown]
    dsimp only
    rw [hwaiting]
    dsimp only
    rw [hfirst]
  · unfold reset
    rw [feed, Attempt.phase_unset rfl]
    dsimp only [reset]
    rw [hother]
    dsimp only
    rw [hshown]
    dsimp only
    rw [hsecond]

theorem alternatives_refused {b c : BehaviorId} {n m : String} {t u : Tally} (v : Tally)
    (index : Nat) (hb : b ≠ event.behavior) (hc : c ≠ event.behavior) :
    ((conditional .or (leaf b n t) (leaf c m u) v).reset.feed index event {}).outcome =
      .invalid := by
  apply feed_unset
  unfold reset
  rw [feed, Attempt.phase_unset rfl]
  dsimp only [reset]
  rw [feed_other n _ index hb]
  dsimp only
  rw [feed_other m _ index hc]
  rfl

theorem alternatives_opensLike {b c : BehaviorId} (hbc : b ≠ c) (n m : String) {t u : Tally}
    (ht : t.Required) (hu : u.Required) (v : Tally) :
    (conditional .or (leaf b n t) (leaf c m u) v).reset.OpensLike
      (conditional .or (leaf c m u) (leaf b n t) v).reset := by
  intro index event
  by_cases hb : b = event.behavior
  · have hc : c ≠ event.behavior := fun hc => hbc (hb.trans hc.symm)
    obtain ⟨o, e, f, a, hef, -, he, hf⟩ := alternatives_feed ht hu v index hb hc
    rw [he, hf]
    exact ⟨rfl, fun _ => ⟨hef, rfl⟩⟩
  · by_cases hc : c = event.behavior
    · obtain ⟨o, e, f, a, -, hfe, he, hf⟩ := alternatives_feed hu ht v index hc hb
      rw [he, hf]
      exact ⟨rfl, fun _ => ⟨hfe, rfl⟩⟩
    · rw [alternatives_refused v index hb hc, alternatives_refused v index hc hb]
      exact ⟨rfl, by simp [Outcome.isFailure]⟩

end Expression

/-! ## Patterns -/

namespace Pattern

theorem scan_opening {e f : Expression} (h : e.OpensLike f) {index : Nat} {events : List Event}
    (hne : events ≠ []) :
    Expression.swapping.Scans (e.scan index {} events) (f.scan index {} events) := by
  cases events with
  | nil => exact absurd rfl hne
  | cons event rest =>
    obtain ⟨houtcome, hgoes⟩ := h index event
    unfold Expression.scan Expression.scanFrom
    dsimp only
    rw [← houtcome]
    split
    · exact ⟨rfl, rfl, rfl, by simp [Scan.isSatisfied], by simp [Scan.isSatisfied]⟩
    · rename_i hfailure
      obtain ⟨htree, hattempt⟩ := hgoes (by simpa using hfailure)
      have hset : (e.feed index event {}).attempt.baseline ≠ none := by
        intro hunset
        rw [Expression.feed_unset hunset] at hfailure
        exact hfailure rfl
      have hrunning : Expression.swapping.attempt (e.feed index event {}).attempt
          (f.feed index event {}).attempt := by
        rw [← hattempt]
        exact Expression.swapping_attempt_refl hset
      split
      · exact ⟨rfl, rfl, rfl, fun _ => htree, fun _ => hrunning⟩
      · exact (Simulation.scanFrom htree hrunning (List.forall₂_eq_eq_eq ▸ rfl) _ _ _ _).after _ _

/-- The sides of conditionals can change places after the first step, and in the first step where
it opens alike. -/
theorem findMatches_swapped {p q : Pattern} (h : Forall₂ Expression.Swapped p.steps q.steps)
    (hfirst : ∀ e ∈ p.steps.head?, ∀ f ∈ q.steps.head?, e.reset.OpensLike f.reset)
    (events : List Event) : p.findMatches events = q.findMatches events := by
  have hevents : Forall₂ Eq events events := List.forall₂_eq_eq_eq ▸ rfl
  apply findMatches_congr hevents
  intro index xs ys hevents
  obtain rfl : xs = ys := List.forall₂_eq_eq_eq ▸ hevents
  have hreset {es fs : List Expression} (h : Forall₂ Expression.Swapped es fs) :
      Forall₂ Expression.Swapped (es.map Expression.reset) (fs.map Expression.reset) := by
    rw [List.forall₂_map_left_iff, List.forall₂_map_right_iff]
    exact h.imp fun e f => .reset
  unfold reset
  generalize p.steps = es, q.steps = fs at h hfirst
  cases h with
  | nil => rfl
  | cons hstep hsteps =>
    apply Simulation.run_cons (S := Expression.swapping) (hreset hsteps) hevents
    · intro index a b xs ys ha hevents
      exact Simulation.run (hreset hsteps) ha hevents
    · exact scan_opening (hfirst _ rfl _ rfl)

theorem findMatches_swapped_alternatives :
    ∃ (p q : Pattern) (registry : Registry) (events : List Event),
      parse {} .empty "A | B -> C & D => P" = (.ok p, registry) ∧
        (parse {} registry "B | A -> D & C => P").1 = .ok q ∧
          p.findMatches events = [[0, 1, 2]] ∧ p.findMatches events = q.findMatches events := by
  obtain ⟨p, q, registry, events, hp, hq, hmatches, h, hfirst⟩ :
      ∃ (p q : Pattern) (registry : Registry) (events : List Event),
        parse {} .empty "A | B -> C & D => P" = (.ok p, registry) ∧
          (parse {} registry "B | A -> D & C => P").1 = .ok q ∧
            p.findMatches events = [[0, 1, 2]] ∧
              Forall₂ Expression.Swapped p.steps q.steps ∧
                ∀ e ∈ p.steps.head?, ∀ f ∈ q.steps.head?, e.reset.OpensLike f.reset := by
    refine ⟨_, _, _, [⟨⟨0⟩, 0⟩, ⟨⟨3⟩, 0.2⟩, ⟨⟨2⟩, 0.4⟩], rfl, rfl, by decide +kernel, ?_, ?_⟩
    · exact .cons (.swap _ (.leaf ..) (.leaf ..)) (.cons (.swap _ (.leaf ..) (.leaf ..)) .nil)
    · rintro e ⟨⟩ f ⟨⟩
      apply Expression.alternatives_opensLike
      · decide
      · rintro range ⟨⟩
        decide
      · rintro range ⟨⟩
        decide
  exact ⟨p, q, registry, events, hp, hq, hmatches, findMatches_swapped h hfirst events⟩

/-- In the first step the sides of `&` cannot. The event that shows the right side finds the left
one without a baseline, and the whole step is refused. -/
theorem findMatches_not_swapped :
    ∃ (p q : Pattern) (registry : Registry) (events : List Event),
      parse {} .empty "A & B => P" = (.ok p, registry) ∧
        (parse {} registry "B & A => P").1 = .ok q ∧
          Forall₂ Expression.Swapped p.steps q.steps ∧
            p.findMatches events = [[0, 1]] ∧ q.findMatches events = [] := by
  refine ⟨_, _, _, [⟨⟨0⟩, 0⟩, ⟨⟨1⟩, 0.2⟩], rfl, rfl, ?_, by decide +kernel, by decide +kernel⟩
  exact .cons (.swap _ (.leaf ..) (.leaf ..)) .nil

end Pattern

end TimedPattern
