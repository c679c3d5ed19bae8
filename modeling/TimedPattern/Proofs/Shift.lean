import TimedPattern.Pattern.Search

/-!
# Searches from later events

Matching never compares an index with a fixed number, so events may be counted from any number on.
-/

namespace TimedPattern

/-! ## What holds indices -/

def IndexSet.shift (k : Nat) (s : IndexSet) : IndexSet :=
  ⟨s.toList.map (· + k), s.ascending.map (· + k) fun _ _ h => Nat.add_lt_add_right h k⟩

def Tally.shift (k : Nat) (t : Tally) : Tally := { t with matched := t.matched.shift k }

def Expression.shift (k : Nat) : Expression → Expression
  | leaf behavior name t => leaf behavior name (t.shift k)
  | conditional op left right t => conditional op (left.shift k) (right.shift k) (t.shift k)

def Attempt.shift (k : Nat) (a : Attempt) : Attempt := { a with indices := a.indices.shift k }

def Fed.shift (k : Nat) (f : Fed) : Fed := ⟨f.outcome, f.expression.shift k, f.attempt.shift k⟩

def Progress.shift (k : Nat) (p : Progress) : Progress := { p with index := p.index + k }

def Ending.shift (k : Nat) : Ending → Ending
  | completed index => completed (index + k)
  | failed => failed
  | ranOut index last => ranOut (index + k) last

def Scan.shift (k : Nat) (s : Scan) : Scan :=
  ⟨s.start + k, s.outcomes, s.progress.map (Progress.shift k), s.ending.shift k,
    s.expression.shift k, s.carried.shift k⟩

def Verdict.shift (k : Nat) : Verdict → Verdict
  | complete indices resume => complete (indices.shift k) (resume + k)
  | failed resume => failed (resume + k)
  | unfinished => unfinished

def Trial.shift (k : Nat) (t : Trial) : Trial := ⟨t.scans.map (Scan.shift k), t.verdict.shift k⟩

namespace IndexSet

variable (k : Nat)

@[simp] theorem toList_shift (s : IndexSet) : (s.shift k).toList = s.toList.map (· + k) := rfl

@[simp] theorem mem_shift {s : IndexSet} {i : Nat} : i ∈ s.shift k ↔ ∃ j ∈ s, j + k = i :=
  List.mem_map

@[simp] theorem shift_insert (s : IndexSet) (i : Nat) :
    (s.insert i).shift k = (s.shift k).insert (i + k) := by
  ext j
  simp only [mem_shift, mem_insert]
  constructor
  · rintro ⟨l, rfl | hl, rfl⟩
    · exact .inl rfl
    · exact .inr ⟨l, hl, rfl⟩
  · rintro (rfl | ⟨l, hl, rfl⟩)
    · exact ⟨i, .inl rfl, rfl⟩
    · exact ⟨l, .inr hl, rfl⟩

@[simp] theorem shift_union (s t : IndexSet) : (s ∪ t).shift k = s.shift k ∪ t.shift k := by
  ext j
  simp only [mem_shift, mem_union]
  constructor
  · rintro ⟨l, hl | hl, rfl⟩
    · exact .inl ⟨l, hl, rfl⟩
    · exact .inr ⟨l, hl, rfl⟩
  · rintro (⟨l, hl, rfl⟩ | ⟨l, hl, rfl⟩)
    · exact ⟨l, .inl hl, rfl⟩
    · exact ⟨l, .inr hl, rfl⟩

@[simp] theorem isEmpty_shift (s : IndexSet) : (s.shift k).isEmpty = s.isEmpty := by
  simp [isEmpty]

@[simp] theorem last?_shift (s : IndexSet) : (s.shift k).last? = s.last?.map (· + k) := by
  simp [last?]

end IndexSet

namespace Attempt

variable (k : Nat) (a : Attempt)

@[simp] theorem phase_shift : (a.shift k).phase = a.phase := rfl

@[simp] theorem collect_shift (s : IndexSet) :
    (a.shift k).collect (s.shift k) = (a.collect s).shift k := by
  simp [collect, shift]

@[simp] theorem handOver_shift (ceiling : Option Float) (time : Float) :
    (a.shift k).handOver ceiling time = (a.handOver ceiling time).shift k := by
  obtain ⟨baseline, deadline, indices⟩ := a
  cases baseline with
  | none => rfl
  | some baseline => cases ceiling <;> rfl

end Attempt

/-! ## Feeding -/

namespace Tally

variable (k : Nat)

@[simp] theorem occurrences_shift (t : Tally) : (t.shift k).occurrences = t.occurrences := rfl

@[simp] theorem timing_shift (t : Tally) : (t.shift k).timing = t.timing := rfl

@[simp] theorem shift_forget (t : Tally) : t.forget.shift k = t.forget := rfl

@[simp] theorem count_shift (t : Tally) : (t.shift k).count = t.count := by
  simp [count, shift, IndexSet.size]

@[simp] theorem meets_shift (t : Tally) : (t.shift k).meets = t.meets := by
  funext range
  simp [meets]

theorem record_shift (t : Tally) (a : Attempt) (index : Nat) (time : Float) (o : Outcome) :
    (t.shift k).record (a.shift k) (index + k) time o =
      ((t.record a index time o).1.shift k, (t.record a index time o).2.shift k) := by
  unfold record
  split
  · simp [shift, Attempt.shift, Attempt.start]
  · exact congrArg (Prod.mk _) (a.collect_shift k t.matched)
  · rfl

theorem judge_shift (t : Tally) (o : Outcome) :
    (t.shift k).judge o = ((t.judge o).1, (t.judge o).2.shift k) := by
  unfold judge
  rw [count_shift, occurrences_shift]
  split
  · rfl
  · split
    · rfl
    · split <;> rfl

theorem settle_shift (t : Tally) (a : Attempt) (index : Nat) (time : Float) (o : Outcome) :
    (t.shift k).settle (a.shift k) (index + k) time o =
      ((t.settle a index time o).1, (t.settle a index time o).2.1.shift k,
        (t.settle a index time o).2.2.shift k) := by
  unfold settle
  rw [record_shift]
  dsimp only
  rw [judge_shift]
  unfold Attempt.shift
  split <;> rfl

end Tally

namespace Expression

variable (k : Nat)

@[simp] theorem shift_reset (e : Expression) : e.reset.shift k = e.reset := by
  induction e with
  | leaf => rfl
  | conditional op left right t ihl ihr => simp [reset, shift, ihl, ihr]

@[simp] theorem indices_shift (e : Expression) : (e.shift k).indices = e.indices.shift k := by
  induction e with
  | leaf => rfl
  | conditional op left right t ihl ihr => simp [indices, shift, ihl, ihr, Tally.shift]

@[simp] theorem ceiling_shift (e : Expression) : (e.shift k).ceiling = e.ceiling := by
  induction e with
  | leaf => rfl
  | conditional op left right t ihl ihr => simp [ceiling, shift, ihl, ihr]

@[simp] theorem isSatisfied_shift (e : Expression) : (e.shift k).isSatisfied = e.isSatisfied := by
  induction e with
  | leaf behavior name t => simp [isSatisfied, shift]
  | conditional op left right t ihl ihr => simp [isSatisfied, shift, ihl, ihr]

theorem expire_shift (e : Expression) (a : Attempt) :
    (e.shift k).expire (a.shift k) = (e.expire a).shift k := by
  unfold expire
  rw [isSatisfied_shift, indices_shift]
  split
  · rw [Attempt.collect_shift]
    rfl
  · cases e <;> rfl

theorem feed_shift (e : Expression) (index : Nat) (event : Event) (a : Attempt) :
    (e.shift k).feed (index + k) event (a.shift k) = (e.feed index event a).shift k := by
  induction e generalizing a with
  | leaf behavior name t =>
    have hexpire := (leaf behavior name t).expire_shift k a
    unfold shift at hexpire ⊢
    unfold feed
    rw [Tally.timing_shift, Attempt.phase_shift]
    split
    · rfl
    · exact hexpire
    · dsimp only
      rw [Tally.settle_shift]
      rfl
  | conditional op left right t ihl ihr =>
    have hexpire := (conditional op left right t).expire_shift k a
    unfold shift at hexpire ⊢
    unfold feed
    rw [Tally.timing_shift, Attempt.phase_shift]
    split
    · rfl
    · exact hexpire
    · dsimp only
      rw [ihl]
      dsimp only [Fed.shift]
      rw [ihr]
      dsimp only [Fed.shift]
      rw [Tally.settle_shift]
      rfl

end Expression

/-! ## Scans -/

namespace Scan

variable (k : Nat) (s : Scan)

@[simp] theorem isSatisfied_shift : (s.shift k).isSatisfied = s.isSatisfied := by
  obtain ⟨_, _, _, ending, _, _⟩ := s
  cases ending <;> rfl

@[simp] theorem anchor_shift : (s.shift k).anchor = s.anchor + k := by
  obtain ⟨_, _, progress, _, _, _⟩ := s
  cases progress <;> rfl

@[simp] theorem resume_shift (isLast : Bool) :
    (s.shift k).resume isLast = s.resume isLast + k := by
  unfold resume
  rw [isSatisfied_shift, anchor_shift, Nat.add_right_comm]
  obtain ⟨_, _, _, ending, _, _⟩ := s
  split
  · cases ending <;> simp [shift, Ending.shift, anchor]
  · rfl

theorem collected_shift : (s.shift k).collected = s.collected.shift k := by
  obtain ⟨_, _, _, ending, e, _⟩ := s
  cases ending with
  | completed index => rfl
  | failed => rfl
  | ranOut index last =>
    simp only [collected, shift, Ending.shift, Expression.indices_shift, Attempt.collect_shift]
    split <;> rfl

theorem attempt_shift : (s.shift k).attempt = s.attempt.shift k := by
  unfold attempt
  rw [isSatisfied_shift, collected_shift]
  cases hp : s.progress with
  | none => simp [shift, hp]
  | some p =>
    have hprogress : (s.shift k).progress = some (p.shift k) := by simp [shift, hp]
    rw [hprogress]
    dsimp only
    split
    · exact (congrArg (Attempt.handOver _ · _) (s.expression.ceiling_shift k)).trans
        (s.collected.handOver_shift k _ _)
    · rfl

end Scan

namespace Expression

theorem scanFrom_shift (k start index : Nat) (progress : Option Progress) (last : Outcome)
    (e : Expression) (a : Attempt) (events : List Event) :
    (e.shift k).scanFrom (start + k) (progress.map (Progress.shift k)) last (index + k) (a.shift k)
        events =
      (e.scanFrom start progress last index a events).shift k := by
  induction events generalizing progress last index e a with
  | nil => rfl
  | cons event rest ih =>
    unfold scanFrom
    rw [feed_shift]
    dsimp only [Fed.shift]
    split
    · rfl
    · split
      · rfl
      · rw [Nat.add_right_comm index k 1]
        refine Eq.trans ?_ (congrArg (Scan.after · _) (ih ..))
        split <;> rfl

theorem scan_shift (k : Nat) (e : Expression) (start : Nat) (a : Attempt) (events : List Event) :
    (e.shift k).scan (start + k) (a.shift k) events = (e.scan start a events).shift k :=
  scanFrom_shift k start start none .invalid e a events

end Expression

/-! ## Trials -/

namespace Trial

variable (k : Nat)

theorem run_shift (index : Nat) (a : Attempt) (events : List Event) (steps : List Expression) :
    run (index + k) (a.shift k) events (steps.map (Expression.shift k)) =
      (run index a events steps).shift k := by
  induction steps generalizing index a events with
  | nil => rfl
  | cons step rest ih =>
    rw [List.map_cons]
    unfold run
    split
    · rfl
    · rw [Expression.scan_shift]
      dsimp only
      rw [Scan.isSatisfied_shift, Scan.attempt_shift, Scan.resume_shift, Scan.resume_shift]
      split
      · cases rest with
        | nil => rfl
        | cons next rest =>
          rw [Nat.add_sub_add_right]
          exact congrArg (after · _) (ih ..)
      · rfl

theorem match?_shift (t : Trial) : (t.shift k).match? = t.match?.map (List.map (· + k)) := by
  obtain ⟨scans, verdict⟩ := t
  cases verdict with
  | complete indices resume =>
    simp only [match?, shift, Verdict.shift, IndexSet.isEmpty_shift]
    split <;> rfl
  | failed resume => rfl
  | unfinished => rfl

theorem next?_shift (t : Trial) : (t.shift k).next? = t.next?.map (· + k) := by
  obtain ⟨scans, verdict⟩ := t
  cases verdict with
  | complete indices resume =>
    simp only [next?, shift, Verdict.shift, IndexSet.last?_shift]
    cases indices.last? with
    | none => rfl
    | some last =>
      simp only [Option.map_some, Option.some.injEq]
      omega
  | failed resume => rfl
  | unfinished => rfl

end Trial

namespace Pattern

theorem trialsFrom_shift (p : Pattern) (k index skip : Nat) (events : List Event) :
    p.reset.trialsFrom (index + k) skip events =
      (p.reset.trialsFrom index skip events).map (Trial.shift k) := by
  have hsteps : p.reset.steps.map (Expression.shift k) = p.reset.steps := by simp [reset]
  have hrun (index : Nat) (events : List Event) : Trial.run (index + k) {} events p.reset.steps =
      (Trial.run index {} events p.reset.steps).shift k := by
    rw [← Trial.run_shift, hsteps]
    rfl
  fun_induction p.reset.trialsFrom index skip events with
  | case1 index skip => rfl
  | case2 index skip event rest ih =>
    rw [trialsFrom, Nat.add_right_comm]
    exact ih
  | case3 index event rest t next hnext ih =>
    rw [trialsFrom, hrun, Trial.next?_shift, hnext, List.map_cons, ← ih, Nat.add_right_comm index k]
    dsimp only [Option.map_some]
    rw [Nat.add_sub_add_right]
  | case4 index event rest t hnext =>
    rw [trialsFrom, hrun, Trial.next?_shift, hnext]
    rfl

theorem matches_shift (p : Pattern) (k : Nat) (events : List Event) :
    (p.reset.trialsFrom k 0 events).filterMap Trial.match? =
      (p.findMatches events).map (List.map (· + k)) := by
  have htrials := p.trialsFrom_shift k 0 0 events
  rw [Nat.zero_add] at htrials
  unfold findMatches trials
  rw [htrials, List.filterMap_map, List.map_filterMap]
  congr 1
  funext t
  exact t.match?_shift k

end Pattern

end TimedPattern
