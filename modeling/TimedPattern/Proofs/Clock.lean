import TimedPattern.Proofs.FloatZeros
import TimedPattern.Proofs.Frame

/-!
# Running clocks

Once windows are measured from some moment, what an event does to a tree does not depend on what was
collected before.
-/

namespace TimedPattern

/-- Windows are measured from `baseline`, and the step before lets them last until `deadline`. -/
structure Attempt.Clocked (a : Attempt) (baseline : Float) (deadline : Option Float) : Prop where
  baseline : a.baseline = some baseline
  deadline : Option.Rel SameNumber deadline a.deadline

namespace Attempt

theorem collect_empty (a : Attempt) : a.collect ∅ = a := rfl

theorem collect_collect (a : Attempt) (s u : IndexSet) :
    (a.collect s).collect u = a.collect (s ∪ u) := by
  unfold collect
  rw [IndexSet.union_assoc]

namespace Clocked

variable {a : Attempt} {baseline : Float} {deadline : Option Float}

theorem collect (h : a.Clocked baseline deadline) (s : IndexSet) :
    (a.collect s).Clocked baseline deadline :=
  ⟨h.baseline, h.deadline⟩

theorem start (h : a.Clocked baseline deadline) (time : Float) : a.start time = a := by
  unfold Attempt.start
  rw [h.baseline]
  exact congrArg (Attempt.mk · _ _) h.baseline.symm

theorem phase (h : a.Clocked baseline deadline) (time : Float) (window : Option Range) :
    a.phase time window = (⟨some baseline, deadline, ∅⟩ : Attempt).phase time window := by
  cases window with
  | none => rfl
  | some window =>
    have hlatest : a.latest baseline window =
        (⟨some baseline, deadline, ∅⟩ : Attempt).latest baseline window := by
      have hdeadline := h.deadline
      unfold latest
      generalize a.deadline = d at hdeadline
      cases hdeadline with
      | none => rfl
      | some hd => exact (hd.sub baseline).later_eq window.zero_le_maximum |>.symm
    unfold Attempt.phase
    rw [h.baseline]
    dsimp only
    rw [hlatest]

theorem handOver (h : a.Clocked baseline deadline) {c d : Option Float}
    (hceiling : Option.Rel SameNumber c d) (time : Float) :
    (a.handOver d time).Clocked time (c.map (baseline + ·) <|> deadline) := by
  unfold Attempt.handOver
  rw [h.baseline]
  cases hceiling with
  | none => exact ⟨rfl, h.deadline⟩
  | some hnumber => exact ⟨rfl, .some (hnumber.add baseline)⟩

end Clocked

end Attempt

/-! ## Feeding while the clock runs -/

variable (baseline : Float) (deadline : Option Float)

theorem Tally.record_clocked (t : Tally) (index : Nat) (time : Float) (o : Outcome) :
    ∃ u s, ∀ a : Attempt, a.Clocked baseline deadline →
      t.record a index time o = (u, a.collect s) := by
  cases o with
  | stepped =>
    refine ⟨{ t with matched := t.matched.insert index }, ∅, fun a ha => ?_⟩
    unfold record
    rw [ha.start, a.collect_empty]
  | completed => exact ⟨t, t.matched, fun a _ => rfl⟩
  | _ => exact ⟨t, ∅, fun a _ => rfl⟩

theorem Tally.settle_clocked (t : Tally) (index : Nat) (time : Float) (o : Outcome) :
    ∃ o' u s, ∀ a : Attempt, a.Clocked baseline deadline →
      t.settle a index time o = (o', u, a.collect s) := by
  obtain ⟨u, s, hrecord⟩ := t.record_clocked baseline deadline index time o
  refine ⟨(u.judge o).1, (u.judge o).2, s, fun a ha => ?_⟩
  unfold settle
  rw [hrecord a ha]
  dsimp only
  rw [if_neg]
  rintro ⟨-, -, hnone⟩
  rw [(ha.collect s).baseline] at hnone
  exact absurd hnone (by simp)

variable {baseline deadline}

namespace Expression

/-- What an event does to a tree while the clock runs, and which indices the attempt collects. -/
def Feeds (baseline : Float) (deadline : Option Float) (index : Nat) (event : Event)
    (e : Expression) (o : Outcome) (e' : Expression) (s : IndexSet) : Prop :=
  ∀ a : Attempt, a.Clocked baseline deadline → e.feed index event a = ⟨o, e', a.collect s⟩

variable {index : Nat} {event : Event}

theorem Feeds.conditional {op : Operator} {left right left' right' : Expression} {t u : Tally}
    {ol or o : Outcome} {sl sr s : IndexSet}
    (hphase : (⟨some baseline, deadline, ∅⟩ : Attempt).phase event.time t.timing = .inside)
    (hl : left.Feeds baseline deadline index event ol left' sl)
    (hr : right.Feeds baseline deadline index event or right' sr)
    (hsettle : ∀ a : Attempt, a.Clocked baseline deadline →
      t.settle a index event.time (op.join ol or) = (o, u, a.collect s)) :
    (conditional op left right t).Feeds baseline deadline index event o
      (conditional op left' right' u) (sl ∪ sr ∪ s) := by
  intro a ha
  unfold feed
  rw [ha.phase, hphase]
  dsimp only
  rw [hl a ha]
  dsimp only
  rw [hr _ (ha.collect sl)]
  dsimp only
  rw [hsettle _ ((ha.collect sl).collect sr), Attempt.collect_collect, Attempt.collect_collect,
    IndexSet.union_assoc]

end Expression

/-! ## Feeding while it stands still -/

theorem Attempt.Advance.unset {a b : Attempt} {time : Float} {source : Nat → Prop}
    (h : a.Advance time source b) (hb : b.baseline = none) : a.baseline = none := by
  rcases h.baseline with h | ⟨h, -⟩
  · exact h.symm.trans hb
  · exact h

theorem Tally.settle_unset {t : Tally} {a : Attempt} {index : Nat} {time : Float} {o : Outcome}
    (ho : o ≠ .completed) (h : (t.settle a index time o).2.2.baseline = none) :
    (t.settle a index time o).1 = .invalid := by
  have hunset := (t.settle_frame a index time o).2.2.unset h
  have hne : o ≠ .stepped := by
    rintro rfl
    rw [(t.settle_tally a index time .stepped).2] at h
    simp [record, Attempt.start] at h
  have hrecord : t.record a index time o = (t, a) := by
    cases o <;> first | rfl | contradiction
  unfold settle
  rw [hrecord]
  simp [hne, ho, hunset]

theorem Attempt.phase_unset {a : Attempt} (h : a.baseline = none) (time : Float)
    (window : Option Range) : a.phase time window = .inside := by
  cases window with
  | none => rfl
  | some window =>
    unfold phase
    rw [h]

theorem Expression.feed_unset {e : Expression} {a : Attempt} {index : Nat} {event : Event}
    (h : (e.feed index event a).attempt.baseline = none) :
    (e.feed index event a).outcome = .invalid := by
  have hunset := (e.feed_frame a index event).attempt.unset h
  induction e generalizing a with
  | leaf behavior name t =>
    unfold feed at h ⊢
    rw [Attempt.phase_unset hunset] at h ⊢
    refine Tally.settle_unset ?_ h
    split <;> simp
  | conditional op left right t ihl ihr =>
    unfold feed at h ⊢
    rw [Attempt.phase_unset hunset] at h ⊢
    dsimp only at h ⊢
    have hright := (t.settle_frame _ index event.time _).2.2.unset h
    have hleft := (right.feed_frame _ index event).attempt.unset hright
    have hjoin : op.join (left.feed index event a).outcome
        (right.feed index event (left.feed index event a).attempt).outcome = .invalid := by
      rw [ihl hleft hunset, ihr hright hleft]
      cases op <;> rfl
    rw [hjoin] at h ⊢
    exact Tally.settle_unset (by simp) h

end TimedPattern
