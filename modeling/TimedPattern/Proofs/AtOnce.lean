import TimedPattern.Proofs.Provenance

/-!
# Steps that hand over all at once

Some trees hand nothing over before the root completes, and then all that they hold, so it does not
matter whether a scan of them ends with a completion or with the events.
-/

namespace TimedPattern

namespace Expression

/-- No node ever completes: a leaf lacks a count or a window, and a conditional lacks a window. -/
def Quiet : Expression → Prop
  | leaf _ _ t => t.occurrences = none ∨ t.timing = none
  | conditional _ left right t => t.timing = none ∧ left.Quiet ∧ right.Quiet

/-- The tree is a conditional below whose root no node ever completes. -/
def QuietBelow : Expression → Prop
  | leaf .. => False
  | conditional _ left right _ => left.Quiet ∧ right.Quiet

/-- Every behavior is asked for once, all of them within one window, and no conditional is limited.
A step that is written without limits becomes such a tree. -/
def Plain (window : Range) : Expression → Prop
  | leaf _ _ t => t.occurrences = some .one ∧ t.timing = some window
  | conditional _ left right t =>
    t.occurrences = none ∧ t.timing = none ∧ left.Plain window ∧ right.Plain window

/-- No leaf holds more than one index, and no conditional holds any. -/
def Single : Expression → Prop
  | leaf _ _ t => t.count ≤ 1
  | conditional _ left right t => t.matched = ∅ ∧ left.Single ∧ right.Single

/-- Trees of some kind hand nothing over before the root completes, and then all that they hold. -/
def AtOnce (kind : Expression → Prop) : Prop :=
  ∀ e, kind e → ∀ (index : Nat) (event : Event) (a : Attempt),
    let f := e.feed index event a
    f.outcome.isFailure = true ∨
      (f.outcome = .completed ∧
        ∀ i, i ∈ f.attempt.indices ↔ i ∈ a.indices ∨ i ∈ f.expression.indices) ∨
      (f.outcome ≠ .completed ∧ f.attempt.indices = a.indices ∧ kind f.expression)

end Expression

/-! ## Outcomes that complete -/

namespace Operator

theorem join_and_completed {o p : Outcome} (h : and.join o p = .completed) :
    o = .completed ∧ p = .completed := by
  have hrank := Outcome.rank_worse o p
  rw [show o.worse p = .completed from h] at hrank
  have hzero : Outcome.completed.rank = 0 := rfl
  constructor
  · apply Outcome.rank_injective
    omega
  · apply Outcome.rank_injective
    omega

theorem join_or_completed {o p : Outcome} (h : or.join o p = .completed) :
    o = .completed ∨ p = .completed := by
  rcases or.join_eq_or o p with ho | hp
  · exact .inl (ho.symm.trans h)
  · exact .inr (hp.symm.trans h)

theorem join_ne (op : Operator) {o p verdict : Outcome} (ho : o ≠ verdict) (hp : p ≠ verdict) :
    op.join o p ≠ verdict := by
  rcases op.join_eq_or o p with h | h
  · rwa [h]
  · rwa [h]

end Operator

namespace Tally

theorem judge_completed {t : Tally} {o : Outcome} (h : (t.judge o).1 = .completed) :
    o = .completed := by
  unfold judge at h
  split at h
  · exact h
  · split at h
    · split at h <;> cases h
    · split at h
      · cases h
      · split at h <;> cases h

theorem judge_kept {t : Tally} {o : Outcome} (h : ¬ (t.judge o).1.isFailure = true) :
    (t.judge o).2 = t := by
  unfold judge at h ⊢
  split
  · rfl
  · split
    · rfl
    · split
      · rename_i hrange hfew hmany
        simp [hrange, hfew, hmany, Outcome.isFailure] at h
      · rfl

variable {t : Tally} {a : Attempt} {index : Nat} {time : Float} {o : Outcome}

theorem settle_completed (h : (t.settle a index time o).1 = .completed) :
    o = .completed ∧ (t.settle a index time o).2.1 = t ∧
      (t.settle a index time o).2.2 = a.collect t.matched := by
  unfold settle at h ⊢
  dsimp only at h ⊢
  split at h
  · cases h
  · rename_i hvalid
    obtain rfl := judge_completed h
    rw [if_neg hvalid]
    exact ⟨rfl, judge_kept (by rw [h]; simp [Outcome.isFailure]), rfl⟩

theorem settle_quiet (t : Tally) (a : Attempt) (index : Nat) (time : Float) (h : o ≠ .completed) :
    (t.settle a index time o).1 ≠ .completed ∧
      (t.settle a index time o).2.2.indices = a.indices := by
  refine ⟨fun hcompleted => h (settle_completed hcompleted).1, ?_⟩
  rw [(t.settle_tally a index time o).2]
  unfold record
  split
  · rfl
  · exact absurd rfl h
  · rfl

end Tally

namespace Expression

variable {e : Expression} {a : Attempt} {index : Nat} {event : Event}

/-! ## Scans -/

theorem AtOnce.scanFrom_collected {kind : Expression → Prop} (hkind : AtOnce kind)
    {start : Nat} {progress : Option Progress} {last : Outcome} {rest : List Event} (he : kind e)
    (h : (e.scanFrom start progress last index a rest).isSatisfied = true) :
    let s := e.scanFrom start progress last index a rest
    ∀ i, i ∈ s.collected.indices ↔ i ∈ a.indices ∨ i ∈ s.expression.indices := by
  induction rest generalizing progress last index e a with
  | nil =>
    have hlast : last.isAcceptable = true := h
    have hcollected : (e.scanFrom start progress last index a []).collected =
        a.collect e.indices := if_pos hlast
    dsimp only
    rw [hcollected]
    exact fun i => Attempt.mem_collect
  | cons event rest ih =>
    have hgoes := not_isFailure_of_isSatisfied h
    have hscan := scanFrom_cons h
    rcases hkind e he index event a with hfails | ⟨ho, hexact⟩ | ⟨ho, hindices, hnext⟩
    · exact absurd hfails hgoes
    · obtain ⟨-, hscan⟩ := hscan.resolve_right fun hlater => hlater.1 ho
      rw [hscan]
      exact hexact
    -- The scan goes on, and nothing has been handed over so far.
    · obtain ⟨-, hscan⟩ := hscan.resolve_left fun hends => ho hends.1
      rw [hscan] at h ⊢
      rw [← hindices]
      exact ih hnext h

/-! ## Nothing below the root completes -/

theorem quiet_reset (e : Expression) : e.reset.Quiet ↔ e.Quiet := by
  induction e with
  | leaf behavior name t => exact Iff.rfl
  | conditional op left right t ihl ihr => simp only [reset, Quiet, Tally.forget, ihl, ihr]

theorem quietBelow_reset (e : Expression) : e.reset.QuietBelow ↔ e.QuietBelow := by
  cases e with
  | leaf behavior name t => exact Iff.rfl
  | conditional op left right t => simp only [reset, QuietBelow, quiet_reset]

theorem Quiet.feed (h : e.Quiet) (a : Attempt) (index : Nat) (event : Event) :
    (e.feed index event a).outcome ≠ .completed ∧
      (e.feed index event a).attempt.indices = a.indices := by
  induction e generalizing a with
  | leaf behavior name t =>
    unfold Expression.feed
    split
    · exact ⟨by simp, rfl⟩
    · rename_i hlate
      have hunlimited : t.occurrences = none := by
        rcases h with h | h
        · exact h
        · rw [h] at hlate
          cases hlate
      simp [expire, isSatisfied, hunlimited]
    · apply Tally.settle_quiet
      split <;> simp
  | conditional op left right t ihl ihr =>
    obtain ⟨htiming, hl, hr⟩ := h
    obtain ⟨hlo, hla⟩ := ihl hl a
    obtain ⟨hro, hra⟩ := ihr hr (left.feed index event a).attempt
    unfold Expression.feed
    rw [htiming]
    dsimp only [Attempt.phase]
    obtain ⟨hcompleted, hindices⟩ := t.settle_quiet _ index event.time (op.join_ne hlo hro)
    exact ⟨hcompleted, hindices.trans (hra.trans hla)⟩

theorem QuietBelow.feed (h : e.QuietBelow) (a : Attempt) (index : Nat) (event : Event) :
    ((e.feed index event a).outcome = .completed ∧
        (e.feed index event a).attempt = a.collect (e.feed index event a).expression.indices) ∨
      ((e.feed index event a).outcome ≠ .completed ∧
        (e.feed index event a).attempt.indices = a.indices) := by
  cases e with
  | leaf behavior name t => exact h.elim
  | conditional op left right t =>
    obtain ⟨hl, hr⟩ := h
    obtain ⟨hlo, hla⟩ := hl.feed a index event
    obtain ⟨hro, hra⟩ := hr.feed (left.feed index event a).attempt index event
    unfold Expression.feed
    split
    · exact .inr ⟨by simp, rfl⟩
    · unfold expire
      split
      · exact .inl ⟨rfl, rfl⟩
      · exact .inr ⟨by simp, rfl⟩
    -- Inside its window the root completes only with a side, and no side does.
    · obtain ⟨hcompleted, hindices⟩ := t.settle_quiet _ index event.time (op.join_ne hlo hro)
      exact .inr ⟨hcompleted, hindices.trans (hra.trans hla)⟩

theorem quietBelow_atOnce : AtOnce QuietBelow := by
  intro e h index event a
  right
  rcases h.feed a index event with ⟨ho, hattempt⟩ | ⟨ho, hindices⟩
  · left
    refine ⟨ho, fun i => ?_⟩
    rw [hattempt]
    exact Attempt.mem_collect
  · right
    refine ⟨ho, hindices, ?_⟩
    rw [← quietBelow_reset, (e.feed_frame a index event).limits, quietBelow_reset]
    exact h

end Expression

/-! ## Windows that pass together -/

theorem float_le_of_lt {x y : Float} (h : x < y) : x ≤ y :=
  (le_iff_compare x y).2 ⟨.lt, (lt_iff_compare x y).1 h, rfl⟩

theorem zero_le_later {x : Float} (hx : 0 ≤ x) (y : Float) : 0 ≤ later x y := by
  unfold later
  split
  · rename_i hlt
    refine le_of_not_lt (isNaN_of_le (float_le_of_lt hlt)).2 (isNaN_of_le hx).1 fun hneg => ?_
    exact not_le_of_lt hlt (le_of_lt_of_le hneg hx)
  · exact hx

namespace Attempt

theorem phase_at_baseline {a : Attempt} {time : Float} (h : a.baseline = some time)
    (window : Range) : a.phase time (some window) ≠ .late := by
  have hlatest : 0 ≤ a.latest time window := by
    unfold latest
    split
    · exact zero_le_later window.zero_le_maximum _
    · exact window.zero_le_maximum
  unfold phase
  rw [h]
  dsimp only
  split
  · simp
  · rw [if_neg (not_lt_sub_self hlatest time)]
    simp

theorem Advance.late_iff {a b : Attempt} {time : Float} {source : Nat → Prop}
    (h : a.Advance time source b) (window : Range) :
    b.phase time (some window) = .late ↔ a.phase time (some window) = .late := by
  rcases h.baseline with hkept | ⟨hunset, hset⟩
  · unfold phase latest
    rw [hkept, h.deadline]
  · have hb := phase_at_baseline hset window
    have ha : a.phase time (some window) ≠ .late := by
      rw [phase_unset hunset]
      simp
    exact ⟨fun hlate => absurd hlate hb, fun hlate => absurd hlate ha⟩

end Attempt

/-! ## Steps without limits -/

namespace IndexSet

theorem length_place (i : Nat) (l : List Nat) :
    0 < (place i l).length ∧ (place i l).length ≤ l.length + 1 := by
  induction l with
  | nil => simp [place]
  | cons j rest ih =>
    unfold place
    split
    · simp
    · split
      · simp
      · simp only [List.length_cons]
        omega

theorem size_insert (s : IndexSet) (i : Nat) :
    0 < (s.insert i).size ∧ (s.insert i).size ≤ s.size + 1 := length_place i s.toList

end IndexSet

namespace Tally

variable {t : Tally} {a : Attempt} {index : Nat} {time : Float} {o : Outcome}

theorem judge_once (ht : t.occurrences = some .one) (hcount : t.count ≤ 2) (o : Outcome) :
    (t.judge o).2.count ≤ 1 ∧ (t.count ≠ 0 → (t.judge o).1 ≠ .stepped) := by
  have hzero : Float.ofNat 0 < Range.one.minimum := by decide
  have hone : ¬ Float.ofNat 1 < Range.one.minimum ∧ ¬ Range.one.maximum < Float.ofNat 1 := by
    decide
  have htwo : ¬ Float.ofNat 2 < Range.one.minimum ∧ Range.one.maximum < Float.ofNat 2 := by
    decide
  unfold judge
  rw [ht]
  dsimp only
  rcases (by omega : t.count = 0 ∨ t.count = 1 ∨ t.count = 2) with h | h | h
  · rw [h, if_pos hzero]
    dsimp only
    exact ⟨by omega, fun hne => absurd rfl hne⟩
  · rw [h, if_neg hone.1, if_neg hone.2]
    dsimp only
    refine ⟨by omega, fun _ => ?_⟩
    split <;> simp
  -- The second match cancels what is asked for once.
  · rw [h, if_neg htwo.1, if_pos htwo.2]
    exact ⟨Nat.zero_le 1, fun _ => by simp⟩

theorem settle_once (ht : t.occurrences = some .one) (hcount : t.count ≤ 1) (a : Attempt)
    (index : Nat) (time : Float) (ho : o = .stepped ∨ o = .skipped) :
    (t.settle a index time o).1 ≠ .stepped ∧ (t.settle a index time o).2.1.count ≤ 1 := by
  rcases ho with rfl | rfl
  · obtain ⟨hpos, hle⟩ := t.matched.size_insert index
    have hjudged := judge_once (t := { t with matched := t.matched.insert index }) ht
      (hle.trans (Nat.succ_le_succ hcount)) .stepped
    unfold settle record
    simp only [ne_eq, not_true, false_and, if_false]
    exact ⟨hjudged.2 (Nat.ne_of_gt hpos), hjudged.1⟩
  · constructor
    · intro hstepped
      have hadvances : (t.settle a index time .skipped).1.isStepped = true := by
        rw [hstepped]
        rfl
      cases (settle_isStepped hadvances).1
    · rcases (t.settle_tally a index time .skipped).1 with hsettled | hforgotten
      · rw [hsettled]
        exact hcount
      · rw [hforgotten]
        exact Nat.zero_le 1

theorem settle_empty (ht : t.matched = ∅) (a : Attempt) (index : Nat) (time : Float)
    (ho : o ≠ .stepped) :
    (t.settle a index time o).2.1.matched = ∅ ∧
      (t.settle a index time o).2.2.indices = a.indices := by
  have hrecorded : (t.record a index time o).1.matched = ∅ := by
    rw [record_matched, if_neg ho]
    exact ht
  obtain ⟨htally, hattempt⟩ := t.settle_tally a index time o
  constructor
  · rcases htally with hsettled | hforgotten
    · rw [hsettled]
      exact hrecorded
    · rw [hforgotten]
      rfl
  · rw [hattempt]
    unfold record
    split
    · exact absurd rfl ho
    · rw [ht]
      rfl
    · rfl

end Tally

namespace Expression

variable {e : Expression} {a : Attempt} {index : Nat} {event : Event} {window : Range}

theorem plain_reset (window : Range) (e : Expression) :
    e.reset.Plain window ↔ e.Plain window := by
  induction e with
  | leaf behavior name t => exact Iff.rfl
  | conditional op left right t ihl ihr => simp only [reset, Plain, Tally.forget, ihl, ihr]

theorem reset_single (e : Expression) : e.reset.Single := by
  induction e with
  | leaf behavior name t => exact Nat.zero_le 1
  | conditional op left right t ihl ihr => exact ⟨rfl, ihl, ihr⟩

theorem Plain.feed_waits (h : e.Plain window) (hsingle : e.Single) (index : Nat)
    (hphase : a.phase event.time (some window) ≠ .late) :
    (e.feed index event a).outcome ≠ .completed ∧ (e.feed index event a).outcome ≠ .stepped ∧
      (e.feed index event a).attempt.indices = a.indices ∧
        (e.feed index event a).expression.Single := by
  induction e generalizing a with
  | leaf behavior name t =>
    obtain ⟨hoccurrences, htiming⟩ := h
    rw [← htiming] at hphase
    unfold feed
    split
    · exact ⟨by simp, by simp, rfl, hsingle⟩
    · rename_i hlate
      exact absurd hlate hphase
    · have ho : (if behavior = event.behavior then Outcome.stepped else .skipped) = .stepped ∨
          (if behavior = event.behavior then Outcome.stepped else .skipped) = .skipped := by
        split <;> simp
      generalize (if behavior = event.behavior then Outcome.stepped else .skipped) = o at ho ⊢
      -- A leaf that matches has its count at once, so it never steps.
      obtain ⟨hstepped, hcount⟩ := Tally.settle_once hoccurrences hsingle a index event.time ho
      have hquiet : o ≠ .completed := by
        rintro rfl
        simp at ho
      obtain ⟨hcompleted, hindices⟩ := t.settle_quiet a index event.time hquiet
      exact ⟨hcompleted, hstepped, hindices, hcount⟩
  | conditional op left right t ihl ihr =>
    obtain ⟨hoccurrences, htiming, hl, hr⟩ := h
    obtain ⟨hempty, hsl, hsr⟩ := hsingle
    have hright := ((left.feed_frame a index event).attempt.late_iff window).not.2 hphase
    obtain ⟨hlo, hls, hla, hln⟩ := ihl hl hsl hphase
    obtain ⟨hro, hrs, hra, hrn⟩ := ihr hr hsr hright
    unfold feed
    rw [htiming]
    dsimp only [Attempt.phase]
    generalize left.feed index event a = l at hlo hls hla hln hro hrs hra hrn ⊢
    generalize right.feed index event l.attempt = r at hro hrs hra hrn ⊢
    have hjoin := op.join_ne hls hrs
    obtain ⟨hmatched, hindices⟩ := Tally.settle_empty hempty r.attempt index event.time hjoin
    refine ⟨(t.settle_quiet r.attempt index event.time (op.join_ne hlo hro)).1, ?_,
      hindices.trans (hra.trans hla), hmatched, hln, hrn⟩
    rcases Tally.settle_uncounted hoccurrences r.attempt index event.time
      (op.join l.outcome r.outcome) with hsettle | ⟨-, hsettle⟩
    · rw [hsettle]
      exact hjoin
    · rw [hsettle]
      simp

theorem Plain.feed_ends (h : e.Plain window) (hsingle : e.Single) (index : Nat)
    (hphase : a.phase event.time (some window) = .late) :
    ((e.feed index event a).outcome = .completed ∨
        (e.feed index event a).outcome.isFailure = true) ∧
      ∀ i, i ∈ (e.feed index event a).attempt.indices ↔
        i ∈ a.indices ∨ i ∈ (e.feed index event a).expression.indices := by
  induction e generalizing a with
  | leaf behavior name t =>
    obtain ⟨-, htiming⟩ := h
    rw [← htiming] at hphase
    rw [feed_late (e := leaf behavior name t) hphase]
    unfold expire
    split
    · exact ⟨.inl rfl, fun i => Attempt.mem_collect⟩
    · refine ⟨.inr rfl, fun i => ?_⟩
      have hnone : ¬ i ∈ ((leaf behavior name t).mapTally Tally.forget).indices :=
        IndexSet.not_mem_empty i
      simp [hnone]
  | conditional op left right t ihl ihr =>
    obtain ⟨hoccurrences, htiming, hl, hr⟩ := h
    obtain ⟨hempty, hsl, hsr⟩ := hsingle
    -- The left side keeps the clock, so the right one is late as well.
    have hright := ((left.feed_frame a index event).attempt.late_iff window).2 hphase
    obtain ⟨hlo, hla⟩ := ihl hl hsl hphase
    obtain ⟨hro, hra⟩ := ihr hr hsr hright
    unfold feed
    rw [htiming]
    dsimp only [Attempt.phase]
    generalize left.feed index event a = l at hlo hla hro hra ⊢
    generalize right.feed index event l.attempt = r at hro hra ⊢
    have hends : op.join l.outcome r.outcome = .completed ∨
        (op.join l.outcome r.outcome).isFailure = true := by
      rcases op.join_eq_or l.outcome r.outcome with hside | hside
      · rwa [hside]
      · rwa [hside]
    have hjoin : op.join l.outcome r.outcome ≠ .stepped := by
      intro hstepped
      rw [hstepped] at hends
      simp [Outcome.isFailure] at hends
    obtain ⟨hmatched, hindices⟩ := Tally.settle_empty hempty r.attempt index event.time hjoin
    constructor
    · rcases Tally.settle_uncounted hoccurrences r.attempt index event.time
        (op.join l.outcome r.outcome) with hsettle | ⟨-, hsettle⟩
      · rw [hsettle]
        exact hends
      · rw [hsettle]
        exact .inr rfl
    · intro i
      rw [mem_indices_conditional, hindices, hmatched, hra, hla, or_assoc]
      simp

theorem plain_atOnce (window : Range) : AtOnce fun e => e.Plain window ∧ e.Single := by
  rintro e ⟨hplain, hsingle⟩ index event a
  by_cases hphase : a.phase event.time (some window) = .late
  · obtain ⟨hends, hexact⟩ := hplain.feed_ends hsingle index hphase
    rcases hends with ho | hfails
    · exact .inr (.inl ⟨ho, hexact⟩)
    · exact .inl hfails
  · obtain ⟨ho, -, hindices, hnext⟩ := hplain.feed_waits hsingle index hphase
    refine .inr (.inr ⟨ho, hindices, ?_, hnext⟩)
    rw [← plain_reset, (e.feed_frame a index event).limits, plain_reset]
    exact hplain

end Expression

end TimedPattern
