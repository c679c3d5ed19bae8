import TimedPattern.Expression.Feed

/-!
# What one event can change

Feeding never touches what a tree asks for. Windows keep being measured from the same moment, unless
this event is the first one to match.
-/

namespace TimedPattern

/-! ## Attempts -/

/-- How an attempt may change while an event of some time is fed. New indices have a source. -/
structure Attempt.Advance (a : Attempt) (time : Float) (source : Nat → Prop) (b : Attempt) :
    Prop where
  deadline : b.deadline = a.deadline
  baseline : b.baseline = a.baseline ∨ a.baseline = none ∧ b.baseline = some time
  kept : ∀ i ∈ a.indices, i ∈ b.indices
  collected : ∀ i ∈ b.indices, i ∈ a.indices ∨ source i

namespace Attempt

theorem mem_collect {a : Attempt} {s : IndexSet} {i : Nat} :
    i ∈ (a.collect s).indices ↔ i ∈ a.indices ∨ i ∈ s := by
  unfold collect
  exact IndexSet.mem_union

namespace Advance

variable {a b c : Attempt} {time : Float} {source other : Nat → Prop}

theorem refl (a : Attempt) (time : Float) (source : Nat → Prop) : a.Advance time source a :=
  ⟨rfl, .inl rfl, fun _ hi => hi, fun _ hi => .inl hi⟩

theorem trans (hab : a.Advance time source b) (hbc : b.Advance time other c) :
    a.Advance time (fun i => source i ∨ other i) c := by
  refine ⟨hbc.deadline.trans hab.deadline, ?_, fun i hi => hbc.kept i (hab.kept i hi), ?_⟩
  · rcases hbc.baseline with h | ⟨h, h'⟩
    · rw [h]; exact hab.baseline
    · rcases hab.baseline with g | ⟨-, g⟩
      · right; exact ⟨by rw [← g, h], h'⟩
      · rw [g] at h; exact absurd h (by simp)
  · intro i hi
    rcases hbc.collected i hi with hi | hi
    · rcases hab.collected i hi with hi | hi
      · exact .inl hi
      · exact .inr (.inl hi)
    · exact .inr (.inr hi)

theorem mono (hab : a.Advance time source b) (h : ∀ i, source i → other i) :
    a.Advance time other b :=
  ⟨hab.deadline, hab.baseline, hab.kept, fun i hi => (hab.collected i hi).imp_right (h i)⟩

end Advance

theorem advance_start (a : Attempt) (time : Float) (source : Nat → Prop) :
    a.Advance time source (a.start time) := by
  refine ⟨rfl, ?_, fun _ hi => hi, fun _ hi => .inl hi⟩
  cases h : a.baseline with
  | none => right; simp [start, h]
  | some baseline => left; simp [start, h]

theorem advance_collect (a : Attempt) (time : Float) (s : IndexSet) :
    a.Advance time (· ∈ s) (a.collect s) :=
  ⟨rfl, .inl rfl, fun _ hi => mem_collect.2 (.inl hi), fun _ hi => mem_collect.1 hi⟩

theorem baseline_handOver (a : Attempt) (ceiling : Option Float) (time : Float) :
    (a.handOver ceiling time).baseline = some time := by
  unfold handOver
  split <;> rfl

theorem indices_handOver (a : Attempt) (ceiling : Option Float) (time : Float) :
    (a.handOver ceiling time).indices = a.indices := by
  unfold handOver
  split <;> rfl

end Attempt

/-! ## Nodes -/

namespace Tally

theorem judge_tally (t : Tally) (o : Outcome) : (t.judge o).2 = t ∨ (t.judge o).2 = t.forget := by
  unfold judge
  split
  · exact .inl rfl
  · split
    · exact .inl rfl
    · split
      · exact .inr rfl
      · exact .inl rfl

theorem record_frame (t : Tally) (a : Attempt) (index : Nat) (time : Float) (o : Outcome) :
    (t.record a index time o).1.forget = t.forget ∧
      (∀ i ∈ (t.record a index time o).1.matched, i ∈ t.matched ∨ i = index) ∧
      a.Advance time (· ∈ t.matched) (t.record a index time o).2 := by
  unfold record
  split
  · refine ⟨rfl, fun i hi => ?_, a.advance_start time _⟩
    rcases IndexSet.mem_insert.1 hi with hi | hi
    · exact .inr hi
    · exact .inl hi
  · exact ⟨rfl, fun i hi => .inl hi, a.advance_collect time _⟩
  · exact ⟨rfl, fun i hi => .inl hi, .refl a time _⟩

theorem record_occurrences (t : Tally) (a : Attempt) (index : Nat) (time : Float) (o : Outcome) :
    (t.record a index time o).1.occurrences = t.occurrences := by
  have hlimits := congrArg Tally.occurrences (t.record_frame a index time o).1
  exact hlimits

theorem settle_tally (t : Tally) (a : Attempt) (index : Nat) (time : Float) (o : Outcome) :
    ((t.settle a index time o).2.1 = (t.record a index time o).1 ∨
      (t.settle a index time o).2.1 = (t.record a index time o).1.forget) ∧
      (t.settle a index time o).2.2 = (t.record a index time o).2 := by
  unfold settle
  generalize t.record a index time o = r
  simp only
  split
  · exact ⟨.inl rfl, rfl⟩
  · exact ⟨r.1.judge_tally o, rfl⟩

theorem settle_frame (t : Tally) (a : Attempt) (index : Nat) (time : Float) (o : Outcome) :
    (t.settle a index time o).2.1.forget = t.forget ∧
      (∀ i ∈ (t.settle a index time o).2.1.matched, i ∈ t.matched ∨ i = index) ∧
      a.Advance time (· ∈ t.matched) (t.settle a index time o).2.2 := by
  obtain ⟨hlimits, hmatched, hadvance⟩ := t.record_frame a index time o
  obtain ⟨ht, ha⟩ := t.settle_tally a index time o
  rw [ha]
  rcases ht with ht | ht
  · rw [ht]; exact ⟨hlimits, hmatched, hadvance⟩
  · rw [ht]
    refine ⟨hlimits, fun i hi => ?_, hadvance⟩
    exact absurd hi (IndexSet.not_mem_empty i)

end Tally

/-! ## Trees -/

/-- What feeding an event leaves of a tree and an attempt. -/
structure Fed.Frame (e : Expression) (a : Attempt) (index : Nat) (time : Float) (f : Fed) :
    Prop where
  /-- Only matched indices change. -/
  limits : f.expression.reset = e.reset
  matched : ∀ i ∈ f.expression.indices, i ∈ e.indices ∨ i = index
  attempt : a.Advance time (fun i => i ∈ e.indices ∨ i = index) f.attempt

namespace Expression

theorem mem_indices_conditional {op : Operator} {left right : Expression} {t : Tally} {i : Nat} :
    i ∈ (conditional op left right t).indices ↔
      i ∈ t.matched ∨ i ∈ left.indices ∨ i ∈ right.indices := by
  rw [indices, IndexSet.mem_union, IndexSet.mem_union, or_assoc]

theorem tally_mapTally (f : Tally → Tally) (e : Expression) : (e.mapTally f).tally = f e.tally := by
  cases e <;> rfl

theorem tally_reset (e : Expression) : e.reset.tally = e.tally.forget := by
  cases e <;> rfl

theorem reset_mapTally_forget (e : Expression) : (e.mapTally Tally.forget).reset = e.reset := by
  cases e <;> rfl

theorem mem_indices_mapTally_forget {e : Expression} {i : Nat}
    (h : i ∈ (e.mapTally Tally.forget).indices) : i ∈ e.indices := by
  cases e with
  | leaf behavior name t => exact absurd h (IndexSet.not_mem_empty i)
  | conditional op left right t =>
    rw [mapTally, mem_indices_conditional] at h
    rw [mem_indices_conditional]
    rcases h with h | h
    · exact absurd h (IndexSet.not_mem_empty i)
    · exact .inr h

theorem expire_frame (e : Expression) (a : Attempt) (index : Nat) (time : Float) :
    (e.expire a).Frame e a index time := by
  unfold expire
  split
  · exact ⟨rfl, fun i hi => .inl hi, (a.advance_collect time e.indices).mono fun i hi => .inl hi⟩
  · exact ⟨e.reset_mapTally_forget, fun i hi => .inl (mem_indices_mapTally_forget hi),
      .refl a time _⟩

theorem feed_early {e : Expression} {a : Attempt} {index : Nat} {event : Event}
    (h : a.phase event.time e.tally.timing = .early) :
    e.feed index event a = ⟨.beforeTime, e, a⟩ := by
  cases e with
  | leaf behavior name t => unfold feed; rw [show a.phase event.time t.timing = _ from h]
  | conditional op left right t =>
    unfold feed; rw [show a.phase event.time t.timing = _ from h]

theorem feed_late {e : Expression} {a : Attempt} {index : Nat} {event : Event}
    (h : a.phase event.time e.tally.timing = .late) : e.feed index event a = e.expire a := by
  cases e with
  | leaf behavior name t => unfold feed; rw [show a.phase event.time t.timing = _ from h]
  | conditional op left right t =>
    unfold feed; rw [show a.phase event.time t.timing = _ from h]

theorem feed_frame (e : Expression) (a : Attempt) (index : Nat) (event : Event) :
    (e.feed index event a).Frame e a index event.time := by
  induction e generalizing a with
  | leaf behavior name t =>
    unfold feed
    split
    · exact ⟨rfl, fun i hi => .inl hi, .refl a event.time _⟩
    · exact expire_frame _ a index event.time
    · obtain ⟨hlimits, hmatched, hadvance⟩ := t.settle_frame a index event.time
        (if behavior = event.behavior then .stepped else .skipped)
      refine ⟨?_, hmatched, hadvance.mono fun i hi => .inl hi⟩
      simp only [reset, hlimits]
  | conditional op left right t ihl ihr =>
    unfold feed
    split
    · exact ⟨rfl, fun i hi => .inl hi, .refl a event.time _⟩
    · exact expire_frame _ a index event.time
    · have hl := ihl a
      have hr := ihr (left.feed index event a).attempt
      dsimp only
      generalize left.feed index event a = l at hl hr ⊢
      generalize right.feed index event l.attempt = r at hr ⊢
      obtain ⟨hlimits, hmatched, hadvance⟩ := t.settle_frame r.attempt index event.time
        (op.join l.outcome r.outcome)
      refine ⟨?_, fun i hi => ?_, ?_⟩
      · simp only [reset, hlimits, hl.limits, hr.limits]
      · rw [mem_indices_conditional] at hi ⊢
        rcases hi with hi | hi | hi
        · rcases hmatched i hi with hi | hi <;> simp [hi]
        · rcases hl.matched i hi with hi | hi <;> simp [hi]
        · rcases hr.matched i hi with hi | hi <;> simp [hi]
      · refine ((hl.attempt.trans hr.attempt).trans hadvance).mono fun i hi => ?_
        rw [mem_indices_conditional]
        rcases hi with ((hi | hi) | hi | hi) | hi <;> simp [hi]

end Expression

end TimedPattern
