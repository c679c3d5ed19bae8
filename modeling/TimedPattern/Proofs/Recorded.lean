import TimedPattern.Proofs.AtOnce

/-!
# What a satisfied step records

A scan that runs out of events records all that its tree holds. One whose tree completes earlier
records what the nodes have handed over on their own, which under `|` may be less.
-/

namespace TimedPattern

namespace Expression

/-- Some indices hold all that a completed tree hands over: what its root has matched, and for `&`
what both sides hand over, for `|` what one of them does. -/
inductive Handed (recorded : IndexSet) : Expression → Prop where
  | whole {e : Expression} (all : ∀ i ∈ e.indices, i ∈ recorded) : Handed recorded e
  | both {left right : Expression} {t : Tally} (own : ∀ i ∈ t.matched, i ∈ recorded)
      (left_handed : Handed recorded left) (right_handed : Handed recorded right) :
      Handed recorded (conditional .and left right t)
  | left {left right : Expression} {t : Tally} (own : ∀ i ∈ t.matched, i ∈ recorded)
      (left_handed : Handed recorded left) : Handed recorded (conditional .or left right t)
  | right {left right : Expression} {t : Tally} (own : ∀ i ∈ t.matched, i ∈ recorded)
      (right_handed : Handed recorded right) : Handed recorded (conditional .or left right t)

/-- Every conditional is an `&` that counts nothing. -/
def Conjunctive : Expression → Prop
  | leaf .. => True
  | conditional op left right t =>
    op = .and ∧ t.occurrences = none ∧ left.Conjunctive ∧ right.Conjunctive

end Expression

/-- What a satisfied scan of a tree records, given the indices that were recorded before and those
that the tree has taken in. -/
structure Scan.Records (s : Scan) (e : Expression) (before : IndexSet) (taken : List Nat) :
    Prop where
  kept : ∀ i ∈ before, i ∈ s.attempt.indices
  taken : ∀ i ∈ s.attempt.indices, i ∈ before ∨ i ∈ taken
  handed : s.expression.Handed s.attempt.indices
  whole : ∀ index last, s.ending = .ranOut index last →
    ∀ i ∈ s.expression.indices, i ∈ s.attempt.indices
  exact : e.Conjunctive ∨ e.QuietBelow ∨ (∃ window, e.Plain window) →
    ∀ i, i ∈ s.attempt.indices ↔ i ∈ before ∨ i ∈ s.expression.indices

/-! ## What is handed over -/

theorem Tally.settle_kept {t : Tally} {a : Attempt} {index : Nat} {time : Float} {o : Outcome}
    (h : ¬ (t.settle a index time o).1.isFailure = true) :
    ∀ i ∈ t.matched, i ∈ (t.settle a index time o).2.1.matched := by
  intro i hi
  have hrecorded : i ∈ (t.record a index time o).1.matched := by
    rw [record_matched]
    split
    · exact IndexSet.mem_insert.2 (.inr hi)
    · exact hi
  unfold settle at h ⊢
  generalize t.record a index time o = r at h hrecorded ⊢
  dsimp only at h ⊢
  split at h
  · simp [Outcome.isFailure] at h
  · rename_i hvalid
    rw [if_neg hvalid]
    dsimp only
    rw [judge_kept h]
    exact hrecorded

namespace Expression

variable {e : Expression} {a : Attempt} {index : Nat} {event : Event}
variable {recorded more : IndexSet}

theorem expire_completed (h : (e.expire a).outcome = .completed) :
    (e.expire a).expression = e ∧ (e.expire a).attempt = a.collect e.indices := by
  unfold expire at h ⊢
  split at h
  · rename_i hsatisfied
    rw [if_pos hsatisfied]
    exact ⟨rfl, rfl⟩
  · cases h

theorem Handed.mono (h : e.Handed recorded) (hle : ∀ i ∈ recorded, i ∈ more) : e.Handed more := by
  induction h with
  | whole hall => exact .whole fun i hi => hle i (hall i hi)
  | both hown _ _ ihl ihr => exact .both (fun i hi => hle i (hown i hi)) ihl ihr
  | left hown _ ih => exact .left (fun i hi => hle i (hown i hi)) ih
  | right hown _ ih => exact .right (fun i hi => hle i (hown i hi)) ih

theorem expire_handed (h : (e.expire a).outcome = .completed) :
    (e.expire a).expression.Handed (e.expire a).attempt.indices := by
  obtain ⟨hexpression, hattempt⟩ := expire_completed h
  rw [hexpression, hattempt]
  exact .whole fun i hi => Attempt.mem_collect.2 (.inr hi)

theorem feed_handed (h : (e.feed index event a).outcome = .completed) :
    (e.feed index event a).expression.Handed (e.feed index event a).attempt.indices := by
  induction e generalizing a with
  | leaf behavior name t =>
    unfold feed at h ⊢
    split at h
    · cases h
    · exact expire_handed h
    · obtain ⟨hcompleted, -⟩ := Tally.settle_completed h
      split at hcompleted <;> cases hcompleted
  | conditional op left right t ihl ihr =>
    unfold feed at h ⊢
    split at h
    · cases h
    · exact expire_handed h
    · have hkept := (right.feed_frame (left.feed index event a).attempt index event).attempt.kept
      have hl := @ihl a
      have hr := @ihr (left.feed index event a).attempt
      dsimp only at h ⊢
      generalize left.feed index event a = l at h hkept hl hr ⊢
      generalize right.feed index event l.attempt = r at h hkept hr ⊢
      obtain ⟨hcompleted, htally, hattempt⟩ := Tally.settle_completed h
      rw [htally, hattempt]
      -- A conditional that completes hands over what it has matched itself.
      have hown : ∀ i ∈ t.matched, i ∈ (r.attempt.collect t.matched).indices :=
        fun i hi => Attempt.mem_collect.2 (.inr hi)
      have hrest : ∀ i ∈ r.attempt.indices, i ∈ (r.attempt.collect t.matched).indices :=
        fun i hi => Attempt.mem_collect.2 (.inl hi)
      cases op with
      | and =>
        obtain ⟨hlc, hrc⟩ := Operator.join_and_completed hcompleted
        exact .both hown ((hl hlc).mono fun i hi => hrest i (hkept i hi)) ((hr hrc).mono hrest)
      | or =>
        rcases Operator.join_or_completed hcompleted with hlc | hrc
        · exact .left hown ((hl hlc).mono fun i hi => hrest i (hkept i hi))
        · exact .right hown ((hr hrc).mono hrest)

/-! ## Trees of `&` without counts -/

theorem conjunctive_reset (e : Expression) : e.reset.Conjunctive ↔ e.Conjunctive := by
  induction e with
  | leaf behavior name t => exact Iff.rfl
  | conditional op left right t ihl ihr => simp only [reset, Conjunctive, Tally.forget, ihl, ihr]

theorem Handed.all (h : e.Handed recorded) (hconjunctive : e.Conjunctive) :
    ∀ i ∈ e.indices, i ∈ recorded := by
  induction h with
  | whole hall => exact hall
  | both hown _ _ ihl ihr =>
    obtain ⟨-, -, hl, hr⟩ := hconjunctive
    intro i hi
    rcases mem_indices_conditional.1 hi with hi | hi | hi
    · exact hown i hi
    · exact ihl hl i hi
    · exact ihr hr i hi
  | left => cases hconjunctive.1
  | right => cases hconjunctive.1

theorem expire_kept (h : ¬ (e.expire a).outcome.isFailure = true) :
    (e.expire a).expression = e := by
  unfold expire at h ⊢
  split at h
  · rename_i hsatisfied
    rw [if_pos hsatisfied]
  · simp [Outcome.isFailure] at h

theorem Conjunctive.feed_kept (h : e.Conjunctive)
    (hgoes : ¬ (e.feed index event a).outcome.isFailure = true) :
    ∀ i ∈ e.indices, i ∈ (e.feed index event a).expression.indices := by
  induction e generalizing a with
  | leaf behavior name t =>
    intro i hi
    unfold feed at hgoes ⊢
    split
    · exact hi
    · rename_i hlate
      rw [hlate] at hgoes
      rw [expire_kept hgoes]
      exact hi
    · rename_i hinside
      rw [hinside] at hgoes
      exact Tally.settle_kept hgoes i hi
  | conditional op left right t ihl ihr =>
    obtain ⟨rfl, hunlimited, hl, hr⟩ := h
    intro i hi
    -- A node that forgets is canceled, and with `&` above it fails the root.
    have hsides (hinside : a.phase event.time t.timing = .inside) :=
      not_or.1 (mt (feed_and_failure hunlimited hinside) hgoes)
    unfold feed at hgoes ⊢
    split
    · exact hi
    · rename_i hlate
      rw [hlate] at hgoes
      rw [expire_kept hgoes]
      exact hi
    · rename_i hinside
      obtain ⟨hlgoes, hrgoes⟩ := hsides hinside
      rw [hinside] at hgoes
      rw [mem_indices_conditional] at hi ⊢
      rcases hi with hi | hi | hi
      · exact .inl (Tally.settle_kept hgoes i hi)
      · exact .inr (.inl (ihl hl hlgoes i hi))
      · exact .inr (.inr (ihr hr hrgoes i hi))

/-! ## Scans -/

variable {events rest : List Event} {start : Nat} {progress : Option Progress} {last : Outcome}

theorem scanFrom_handed
    (h : (e.scanFrom start progress last index a rest).isSatisfied = true) :
    let s := e.scanFrom start progress last index a rest
    s.expression.Handed s.collected.indices := by
  induction rest generalizing progress last index e a with
  | nil =>
    have hlast : last.isAcceptable = true := h
    have hcollected : (e.scanFrom start progress last index a []).collected =
        a.collect e.indices := if_pos hlast
    dsimp only
    rw [hcollected]
    exact .whole fun i hi => Attempt.mem_collect.2 (.inr hi)
  | cons event rest ih =>
    rcases scanFrom_cons h with ⟨ho, hscan⟩ | ⟨-, hscan⟩
    · rw [hscan]
      exact feed_handed ho
    · rw [hscan] at h ⊢
      exact ih h

theorem mem_takenFrom_cons {i : Nat} : i ∈ e.takenFrom index a (event :: rest) ↔
    let f := e.feed index event a
    i = index ∧ index ∈ f.expression.indices ∨
      (¬ f.outcome.isFailure = true ∧ f.outcome ≠ .completed) ∧
        i ∈ f.expression.takenFrom (index + 1) f.attempt rest := by
  rw [takenFrom]
  dsimp only
  generalize e.feed index event a = f
  rw [← not_or]
  split_ifs with hindex hends hends
  · simp [hindex, hends]
  · simp [hindex, hends]
  · simp [hindex, hends]
  · simp [hindex, hends]

theorem mem_takenFrom (h : (e.scanFrom start progress last index a rest).isSatisfied = true) :
    ∀ i ∈ (e.scanFrom start progress last index a rest).collected.indices,
      i ∈ a.indices ∨ i ∈ e.indices ∨ i ∈ e.takenFrom index a rest := by
  intro i hi
  induction rest generalizing progress last index e a with
  | nil =>
    rcases Scan.mem_collected hi with hi | hi
    · exact .inl hi
    · exact .inr (.inl hi)
  | cons event rest ih =>
    have hgoes := not_isFailure_of_isSatisfied h
    have hcarried (hi : i ∈ (e.feed index event a).attempt.indices) :
        i ∈ a.indices ∨ i ∈ e.indices := (e.feed_advance a index event).collected i hi
    have hheld (hi : i ∈ (e.feed index event a).expression.indices) :
        i ∈ e.indices ∨ i = index ∧ index ∈ (e.feed index event a).expression.indices := by
      rcases (e.feed_frame a index event).matched i hi with hold | hnew
      · exact .inl hold
      · exact .inr ⟨hnew, hnew ▸ hi⟩
    rw [mem_takenFrom_cons]
    dsimp only
    rcases scanFrom_cons h with ⟨ho, hscan⟩ | ⟨ho, hscan⟩
    · rw [hscan] at hi
      rcases Scan.mem_collected hi with hi | hi
      · have := hcarried hi
        tauto
      · have := hheld hi
        tauto
    · rw [hscan] at h hi
      rcases ih h hi with hi | hi | hi
      · have := hcarried hi
        tauto
      · have := hheld hi
        tauto
      · exact .inr (.inr (.inr ⟨⟨hgoes, ho⟩, hi⟩))

end Expression

/-! ## What a scan records -/

namespace Scan

theorem mem_collected_of_carried {s : Scan} {i : Nat} (h : i ∈ s.carried.indices) :
    i ∈ s.collected.indices := by
  unfold collected
  split
  · split
    · exact Attempt.mem_collect.2 (.inl h)
    · exact h
  · exact h

theorem mem_collected_of_ranOut {s : Scan} {index i : Nat} {last : Outcome}
    (h : s.isSatisfied = true) (hending : s.ending = .ranOut index last)
    (hi : i ∈ s.expression.indices) : i ∈ s.collected.indices := by
  unfold isSatisfied at h
  unfold collected
  rw [hending] at h ⊢
  dsimp only at h ⊢
  rw [if_pos h]
  exact Attempt.mem_collect.2 (.inr hi)

end Scan

namespace Expression

variable {e : Expression} {a : Attempt} {index start : Nat} {rest : List Event}
variable {progress : Option Progress} {last : Outcome}

theorem scanFrom_kept (h : (e.scanFrom start progress last index a rest).isSatisfied = true) :
    ∀ i ∈ a.indices, i ∈ (e.scanFrom start progress last index a rest).carried.indices := by
  induction rest generalizing progress last index e a with
  | nil => exact fun i hi => hi
  | cons event rest ih =>
    have hkept := (e.feed_frame a index event).attempt.kept
    rcases scanFrom_cons h with ⟨-, hscan⟩ | ⟨-, hscan⟩
    · rw [hscan]
      exact hkept
    · rw [hscan] at h ⊢
      exact fun i hi => ih h i (hkept i hi)

theorem Conjunctive.scanFrom_held (hconjunctive : e.Conjunctive)
    (h : (e.scanFrom start progress last index a rest).isSatisfied = true) :
    let s := e.scanFrom start progress last index a rest
    (∀ i ∈ e.indices, i ∈ s.expression.indices) ∧
      ∀ i ∈ s.carried.indices, i ∈ a.indices ∨ i ∈ s.expression.indices := by
  induction rest generalizing progress last index e a with
  | nil => exact ⟨fun i hi => hi, fun i hi => .inl hi⟩
  | cons event rest ih =>
    have hheld := hconjunctive.feed_kept (not_isFailure_of_isSatisfied h)
    have hcollected := (e.feed_advance a index event).collected
    rcases scanFrom_cons h with ⟨-, hscan⟩ | ⟨-, hscan⟩
    · rw [hscan]
      exact ⟨hheld, fun i hi => (hcollected i hi).imp_right (hheld i)⟩
    · rw [hscan] at h ⊢
      have hsame : (e.feed index event a).expression.Conjunctive := by
        rw [← conjunctive_reset, (e.feed_frame a index event).limits, conjunctive_reset]
        exact hconjunctive
      obtain ⟨hlater, hcarried⟩ := ih hsame h
      refine ⟨fun i hi => hlater i (hheld i hi), fun i hi => ?_⟩
      rcases hcarried i hi with hi | hi
      · exact (hcollected i hi).imp_right fun hi => hlater i (hheld i hi)
      · exact .inr hi

/-- A satisfied step keeps what was recorded before, and adds only what its tree has taken in. If
the events ran out it adds all that the tree holds, and if the tree completed, all that its nodes
have handed over on the way. For a tree of `&` without counts, for a group that only completes as a
whole, and for a step without limits, this is all that the tree holds as well. -/
theorem scan_records (e : Expression) (start : Nat) (a : Attempt) (events : List Event)
    (h : (e.reset.scan start a (events.drop start)).isSatisfied = true) :
    (e.reset.scan start a (events.drop start)).Records e a.indices
      (e.reset.takenFrom start a (events.drop start)) := by
  have hkept : ∀ i ∈ a.indices,
      i ∈ (e.reset.scan start a (events.drop start)).attempt.indices := by
    intro i hi
    rw [Scan.attempt_indices]
    exact Scan.mem_collected_of_carried (scanFrom_kept h i hi)
  have hhanded := scanFrom_handed h
  refine ⟨hkept, fun i hi => ?_, ?_, fun n last hending i hi => ?_, ?_⟩
  · rw [Scan.attempt_indices] at hi
    rcases mem_takenFrom h i hi with hi | hi | hi
    · exact .inl hi
    · exact absurd hi (e.not_mem_indices_reset i)
    · exact .inr hi
  · rw [Scan.attempt_indices]
    exact hhanded
  · rw [Scan.attempt_indices]
    exact Scan.mem_collected_of_ranOut h hending hi
  -- Three kinds of trees record all that they hold.
  · rintro (hconjunctive | hquiet | ⟨window, hplain⟩)
    · intro i
      have hreset := (conjunctive_reset e).2 hconjunctive
      have hleft : (e.reset.scan start a (events.drop start)).expression.Conjunctive := by
        rw [← conjunctive_reset, scan, reset_scanFrom, conjunctive_reset]
        exact hreset
      constructor
      · intro hi
        rw [Scan.attempt_indices] at hi
        rcases Scan.mem_collected hi with hi | hi
        · exact (hreset.scanFrom_held h).2 i hi
        · exact .inr hi
      · rintro (hi | hi)
        · exact hkept i hi
        · rw [Scan.attempt_indices]
          exact hhanded.all hleft i hi
    · rw [Scan.attempt_indices]
      exact quietBelow_atOnce.scanFrom_collected ((quietBelow_reset e).2 hquiet) h
    · rw [Scan.attempt_indices]
      have hreset := (plain_reset window e).2 hplain
      exact (plain_atOnce window).scanFrom_collected ⟨hreset, e.reset_single⟩ h

/-- Both windows have passed, so both sides hand over what they hold. -/
theorem scan_records_both_sides :
    ∃ (p : Pattern) (step : Expression) (events : List Event),
      (Pattern.parse {} .empty "A & B[1:2] => P").1 = .ok p ∧ p.steps = [step] ∧
        (step.reset.scan 0 {} (events.drop 0)).ending = .completed 3 ∧
          (step.reset.scan 0 {} (events.drop 0)).Records step ∅ [0, 1, 2] := by
  obtain ⟨p, step, events, hp, hstep, hending, htaken, hsatisfied⟩ :
      ∃ (p : Pattern) (step : Expression) (events : List Event),
        (Pattern.parse {} .empty "A & B[1:2] => P").1 = .ok p ∧ p.steps = [step] ∧
          (step.reset.scan 0 {} (events.drop 0)).ending = .completed 3 ∧
            step.reset.takenFrom 0 {} (events.drop 0) = [0, 1, 2] ∧
              (step.reset.scan 0 {} (events.drop 0)).isSatisfied = true := by
    refine ⟨_, _, [⟨⟨0⟩, 0⟩, ⟨⟨1⟩, 0.5⟩, ⟨⟨1⟩, 0.7⟩, ⟨⟨2⟩, 2⟩], rfl, rfl, ?_⟩
    decide +kernel
  refine ⟨p, step, events, hp, hstep, hending, ?_⟩
  rw [← htaken]
  exact scan_records step 0 {} events hsatisfied

/-- The window of the left side passes, so the step completes and records what the left side holds.
The event of the other side, which has its count too, is left out. Had the events run out one
earlier, both would have been recorded. -/
theorem scan_records_one_side :
    ∃ (p : Pattern) (step : Expression) (events : List Event),
      (Pattern.parse {} .empty "A | B\x7bs 5\x7d => P").1 = .ok p ∧ p.steps = [step] ∧
        (step.reset.scan 0 {} (events.drop 0)).isSatisfied = true ∧
          (step.reset.scan 0 {} (events.drop 0)).ending = .completed 2 ∧
            (step.reset.scan 0 {} (events.drop 0)).expression.indices.toList = [0, 1] ∧
              (step.reset.scan 0 {} (events.drop 0)).attempt.indices.toList = [0] ∧
                (step.reset.scan 0 {} ((events.take 2).drop 0)).attempt.indices.toList = [0, 1] ∧
                  ¬ ∀ i, i ∈ (step.reset.scan 0 {} (events.drop 0)).attempt.indices ↔
                    i ∈ ({} : Attempt).indices ∨
                      i ∈ (step.reset.scan 0 {} (events.drop 0)).expression.indices := by
  refine ⟨_, _, [⟨⟨0⟩, 0⟩, ⟨⟨1⟩, 0.5⟩, ⟨⟨2⟩, 2⟩], rfl, rfl, ?_, ?_, ?_, ?_, ?_, fun h => ?_⟩
  · decide +kernel
  · decide +kernel
  · decide +kernel
  · decide +kernel
  · decide +kernel
  · exact absurd (h 1) (by decide +kernel)

end Expression

end TimedPattern
