import TimedPattern.Proofs.Chain.Spec
import TimedPattern.Proofs.FloatOrder
import TimedPattern.Proofs.Matches

/-!
# One step of a chain

A scan of a single behavior takes events that lie in its window, as many as its count allows, and
moves the clock on to the last of them.
-/

namespace TimedPattern

/-! ## Growing sets -/

namespace IndexSet

theorem place_of_lt {i : Nat} {l : List Nat} (h : ∀ j ∈ l, j < i) : place i l = l ++ [i] := by
  induction l with
  | nil => rfl
  | cons j rest ih =>
    have hj : j < i := h j (by simp)
    unfold place
    rw [if_neg (by omega), if_neg (by omega), ih fun k hk => h k (by simp [hk])]
    rfl

theorem last?_insert {s : IndexSet} {i : Nat} (h : ∀ j ∈ s, j < i) :
    (s.insert i).last? = some i := by
  show (place i s.toList).getLast? = some i
  rw [place_of_lt h]
  exact List.getLast?_concat

theorem mem_of_last? {s : IndexSet} {i : Nat} (h : s.last? = some i) : i ∈ s :=
  List.mem_of_getLast? h

end IndexSet

/-! ## One event -/

namespace Event

variable {events rest : List Event} {index : Nat} {event : Event}

theorem getElem?_of_drop (h : events.drop index = event :: rest) : events[index]? = some event := by
  rw [← List.head?_drop, h]
  rfl

theorem drop_succ (h : events.drop index = event :: rest) : events.drop (index + 1) = rest := by
  rw [← List.drop_drop, h]
  rfl

end Event

/-- The clock of an attempt that has begun. -/
structure Attempt.Shows (a : Attempt) (c : Clock) : Prop where
  baseline : a.baseline = some c.baseline
  deadline : a.deadline = c.deadline

theorem Attempt.Shows.start {a : Attempt} {c : Clock} (h : a.Shows c) (time : Float) :
    a.start time = a := by
  obtain ⟨baseline, deadline, indices⟩ := a
  have hbaseline : baseline = some c.baseline := h.baseline
  rw [hbaseline]
  rfl

theorem Attempt.Shows.admits {a : Attempt} {c : Clock} (h : a.Shows c) {window : Range}
    {time : Float} (hphase : a.phase time (some window) = .inside) : c.Admits window time := by
  have hlatest : a.latest c.baseline window = c.latest window := by
    unfold latest Clock.latest
    rw [h.deadline]
    cases c.deadline <;> rfl
  unfold phase at hphase
  rw [h.baseline] at hphase
  simp only [hlatest] at hphase
  split at hphase
  · simp at hphase
  · rename_i hearly
    split at hphase
    · simp at hphase
    · rename_i hlate
      exact ⟨hearly, hlate⟩

/-- What the outcome of a node that goes on says about its count, and whether the event matched. -/
structure Outcome.Reports (o : Outcome) (range : Range) (count : Nat) (matched : Bool) : Prop where
  goes_on : o ≠ .completed
  stepped : o.isStepped = matched
  acceptable : o.isAcceptable = true → range.containsCount count = true

theorem Tally.judge_reports {t : Tally} {range : Range} (ht : t.occurrences = some range)
    (o : Outcome) :
    (t.judge o).1.isFailure = true ∨
      (t.judge o).2 = t ∧ (t.judge o).1.Reports range t.count (decide (o = .stepped)) := by
  unfold judge
  rw [ht]
  dsimp only
  split
  · right
    refine ⟨rfl, ?_⟩
    by_cases ho : o = .stepped
    · simp only [ho]
      exact ⟨by simp, rfl, by simp [Outcome.isAcceptable]⟩
    · simp only [ho, if_false]
      exact ⟨by simp, rfl, by simp [Outcome.isAcceptable]⟩
  · rename_i hmin
    split
    · exact .inl rfl
    · rename_i hmax
      have hcount := Range.containsCount_of_not_lt hmin hmax
      right
      refine ⟨rfl, ?_⟩
      by_cases ho : o = .stepped
      · simp only [ho]
        exact ⟨by simp, rfl, fun _ => hcount⟩
      · simp only [ho, if_false]
        exact ⟨by simp, rfl, fun _ => hcount⟩

namespace Link

variable {l : Link} {matched : IndexSet} {a : Attempt} {c : Clock} {index : Nat} {event : Event}

/-- All that an event can do to a link once the clock runs. -/
theorem feed_cases (ha : a.Shows c) :
    ((l.holding matched).feed index event a).outcome.isFailure = true ∨
      ((l.holding matched).feed index event a = ⟨.completed, l.holding matched, a.collect matched⟩ ∧
        l.occurrences.containsCount matched.size = true) ∨
      (∃ o, (l.holding matched).feed index event a = ⟨o, l.holding matched, a⟩ ∧
        o.Reports l.occurrences matched.size false) ∨
      (∃ o, (l.holding matched).feed index event a = ⟨o, l.holding (matched.insert index), a⟩ ∧
        o.Reports l.occurrences (matched.insert index).size true ∧
        event.behavior = l.behavior ∧ c.Admits l.timing event.time) := by
  unfold holding Expression.feed
  dsimp only
  split
  · right; right; left
    exact ⟨.beforeTime, rfl, by simp, rfl, by simp [Outcome.isAcceptable]⟩
  · unfold Expression.expire
    split
    · rename_i hsatisfied
      right; left
      exact ⟨rfl, hsatisfied⟩
    · exact .inl rfl
  · rename_i hinside
    have hbaseline : a.baseline.isNone = false := by rw [ha.baseline]; rfl
    by_cases hbehavior : l.behavior = event.behavior
    · rw [if_pos hbehavior]
      simp only [Tally.settle, Tally.record, ha.start, ne_eq, not_true, false_and, if_false]
      rcases Tally.judge_reports (t := ⟨some l.occurrences, some l.timing, matched.insert index⟩)
        rfl .stepped with h | ⟨h, hreports⟩
      · exact .inl h
      · right; right; right
        exact ⟨_, by rw [h], hreports, hbehavior.symm, ha.admits hinside⟩
    · rw [if_neg hbehavior]
      simp only [Tally.settle, Tally.record, hbaseline, Bool.false_eq_true, and_false, if_false]
      rcases Tally.judge_reports (t := ⟨some l.occurrences, some l.timing, matched⟩)
        rfl .skipped with h | ⟨h, hreports⟩
      · exact .inl h
      · right; right; left
        exact ⟨_, by rw [h], hreports⟩

theorem feed_first_cases :
    (l.step.feed index event {}).outcome.isFailure = true ∨
      ∃ o, l.step.feed index event {} =
          ⟨o, l.holding (IndexSet.insert ∅ index), Attempt.start {} event.time⟩ ∧
        o.Reports l.occurrences (IndexSet.insert ∅ index).size true ∧
        event.behavior = l.behavior := by
  unfold step holding Expression.feed
  simp only [Attempt.phase]
  by_cases hbehavior : l.behavior = event.behavior
  · rw [if_pos hbehavior]
    simp only [Tally.settle, Tally.record, ne_eq, not_true, false_and, if_false]
    rcases Tally.judge_reports (t := ⟨some l.occurrences, some l.timing, IndexSet.insert ∅ index⟩)
      rfl .stepped with h | ⟨h, hreports⟩
    · exact .inl h
    · right
      exact ⟨_, by rw [h], hreports, hbehavior.symm⟩
  · left
    rw [if_neg hbehavior]
    rfl

end Link

/-! ## A whole scan -/

namespace Expression

variable {e f : Expression} {a b : Attempt} {start index : Nat} {progress : Option Progress}
variable {last o : Outcome} {event : Event} {rest : List Event} {stepped : Bool}

theorem not_isFailure_of_isSatisfied
    (h : (e.scanFrom start progress last index a (event :: rest)).isSatisfied = true) :
    ¬ (e.feed index event a).outcome.isFailure = true := by
  intro hfailure
  unfold scanFrom at h
  dsimp only at h
  rw [if_pos hfailure] at h
  simp [Scan.isSatisfied] at h

theorem scanFrom_goes_on (hfed : e.feed index event a = ⟨o, f, b⟩) (ho : o ≠ .completed)
    (hstepped : o.isStepped = stepped)
    (h : (e.scanFrom start progress last index a (event :: rest)).isSatisfied = true) :
    e.scanFrom start progress last index a (event :: rest) =
      (f.scanFrom start (if stepped then some ⟨index, event.time⟩ else progress) o (index + 1) b
        rest).after o := by
  have hfailure := not_isFailure_of_isSatisfied h
  rw [scanFrom]
  rw [hfed] at hfailure ⊢
  dsimp only at hfailure ⊢
  rw [if_neg hfailure, if_neg ho, hstepped]

end Expression

namespace Link

variable {l : Link} {matched : IndexSet} {a : Attempt} {c : Clock} {index : Nat} {event : Event}

/-- What a scan has taken in front of some event. Its clock has run since it began, or since the
event in `first`. -/
structure Course (l : Link) (events : List Event) (c : Clock) (good : Nat → Prop)
    (start index : Nat) (collected first matched : IndexSet) (a : Attempt)
    (progress : Option Progress) : Prop where
  all_good : ∀ i ∈ matched, good i ∧ start ≤ i ∧ i < index
  has_first : ∀ i ∈ first, i ∈ matched
  clock : a.Shows c
  indices : a.indices = collected
  last_index : progress.map Progress.index = matched.last?
  last_time : ∀ p, progress = some p → ∃ event, events[p.index]? = some event ∧ event.time = p.time

/-- What a scan that succeeds leaves: a group of indices and a clock that has moved on. -/
structure Took (l : Link) (events : List Event) (c : Clock) (good : Nat → Prop) (start : Nat)
    (collected first : IndexSet) (s : Scan) (group : List Nat) : Prop where
  ascending : group.Pairwise (· < ·)
  all_good : ∀ i ∈ group, good i ∧ start ≤ i ∧ i ≤ s.anchor
  has_first : ∀ i ∈ first, i ∈ group
  start_le : start ≤ s.anchor
  count : l.occurrences.containsCount group.length = true
  indices : ∀ i, i ∈ s.attempt.indices ↔ i ∈ collected ∨ i ∈ group
  clock : s.attempt.Shows (c.after l.timing events group)

variable {events rest : List Event} {good : Nat → Prop} {start : Nat} {progress : Option Progress}
variable {collected first : IndexSet} {s : Scan} {last : Outcome}

theorem Course.took (h : Course l events c good start index collected first matched a progress)
    (hstart : s.start = start) (hprogress : s.progress = progress)
    (hexpression : s.expression = l.holding matched) (hcollected : s.collected = a.collect matched)
    (hsatisfied : s.isSatisfied = true)
    (hcount : l.occurrences.containsCount matched.size = true) :
    Took l events c good start collected first s matched.toList := by
  have hanchor : s.anchor = matched.last?.getD start := by
    unfold Scan.anchor
    rw [hprogress, h.last_index, hstart]
  refine ⟨matched.ascending, fun i hi => ?_, h.has_first, ?_, hcount, fun i => ?_, ?_⟩
  · obtain ⟨hgood, hle, -⟩ := h.all_good i hi
    obtain ⟨j, hj, hij⟩ := IndexSet.le_last?_of_mem hi
    rw [hanchor, hj]
    exact ⟨hgood, hle, hij⟩
  · rw [hanchor]
    cases hlast : matched.last? with
    | none => exact Nat.le_refl _
    | some j => exact (h.all_good j (IndexSet.mem_of_last? hlast)).2.1
  · rw [Scan.attempt_indices, hcollected, Attempt.mem_collect, h.indices]
    rfl
  · have hbaseline : (a.collect matched).baseline = some c.baseline := h.clock.baseline
    have hlast : matched.toList.getLast? = progress.map Progress.index := h.last_index.symm
    unfold Scan.attempt Clock.after
    rw [hprogress, hlast, hcollected, hsatisfied, hexpression]
    cases hp : progress with
    | none => exact ⟨h.clock.baseline, h.clock.deadline⟩
    | some p =>
      obtain ⟨event, hevent, htime⟩ := h.last_time p hp
      simp only [Option.map_some, Option.bind_some, hevent, if_true, Attempt.handOver, hbaseline]
      exact ⟨congrArg some htime.symm, rfl⟩

theorem Took.after {group : List Nat} (o : Outcome)
    (h : Took l events c good start collected first s group) :
    Took l events c good start collected first (s.after o) group :=
  ⟨h.ascending, h.all_good, h.has_first, h.start_le, h.count, h.indices, h.clock⟩

theorem Course.pass (h : Course l events c good start index collected first matched a progress) :
    Course l events c good start (index + 1) collected first matched a progress :=
  ⟨fun i hi => by have := h.all_good i hi; exact ⟨this.1, this.2.1, by omega⟩, h.has_first, h.clock,
    h.indices, h.last_index, h.last_time⟩

theorem Course.take (h : Course l events c good start index collected first matched a progress)
    (hstart : start ≤ index) (hevent : events[index]? = some event) (hgood : good index) :
    Course l events c good start (index + 1) collected first (matched.insert index) a
      (some ⟨index, event.time⟩) := by
  refine ⟨fun i hi => ?_, fun i hi => ?_, h.clock, h.indices, ?_, fun p hp => ?_⟩
  · rcases IndexSet.mem_insert.1 hi with rfl | hi
    · exact ⟨hgood, hstart, by omega⟩
    · have := h.all_good i hi
      exact ⟨this.1, this.2.1, by omega⟩
  · exact IndexSet.mem_insert.2 (.inr (h.has_first i hi))
  · exact (IndexSet.last?_insert fun j hj => (h.all_good j hj).2.2).symm
  · obtain rfl := Option.some.inj hp
    exact ⟨event, hevent, rfl⟩

theorem Course.begun (hevent : events[start]? = some event) :
    Course l events ⟨event.time, none⟩ (fun i => i = start ∨ l.Takes events ⟨event.time, none⟩ i)
      start (start + 1) ∅ (IndexSet.insert ∅ start) (IndexSet.insert ∅ start)
      (Attempt.start {} event.time) (some ⟨start, event.time⟩) := by
  refine ⟨fun i hi => ?_, fun i hi => hi, ⟨rfl, rfl⟩, rfl, rfl, fun p hp => ?_⟩
  · rcases IndexSet.mem_insert.1 hi with rfl | hi
    · exact ⟨.inl rfl, Nat.le_refl _, Nat.lt_succ_self _⟩
    · exact absurd hi (IndexSet.not_mem_empty i)
  · obtain rfl := Option.some.inj hp
    exact ⟨event, hevent, rfl⟩

theorem scanFrom_took (hgood : ∀ i, l.Takes events c i → good i)
    (h : Course l events c good start index collected first matched a progress)
    (hlast : last.isAcceptable = true → l.occurrences.containsCount matched.size = true)
    (hstart : start ≤ index) (hrest : events.drop index = rest)
    (hsatisfied : ((l.holding matched).scanFrom start progress last index a rest).isSatisfied =
      true) :
    ∃ group, Took l events c good start collected first
      ((l.holding matched).scanFrom start progress last index a rest) group := by
  induction rest generalizing progress last index matched with
  | nil =>
    have hacceptable : last.isAcceptable = true := hsatisfied
    refine ⟨_, h.took rfl rfl rfl ?_ hsatisfied (hlast hacceptable)⟩
    unfold Expression.scanFrom Scan.collected
    dsimp only
    rw [if_pos hacceptable]
    rfl
  | cons event rest ih =>
    have hevent := Event.getElem?_of_drop hrest
    have hnext := Event.drop_succ hrest
    -- Every event keeps the course, and what ends the scan finds the count in range.
    rcases @feed_cases l matched a c index event h.clock with
      hf | ⟨hf, hcount⟩ | ⟨o, hf, hreports⟩ | ⟨o, hf, hreports, hbehavior, hadmits⟩
    · exact absurd hf (Expression.not_isFailure_of_isSatisfied hsatisfied)
    · rw [Expression.scanFrom, hf] at hsatisfied ⊢
      exact ⟨_, h.took rfl rfl rfl rfl rfl hcount⟩
    · have hscan := Expression.scanFrom_goes_on hf hreports.goes_on hreports.stepped hsatisfied
      rw [hscan] at hsatisfied ⊢
      obtain ⟨group, hgroup⟩ := ih h.pass hreports.acceptable (by omega) hnext hsatisfied
      exact ⟨group, hgroup.after o⟩
    · have hscan := Expression.scanFrom_goes_on hf hreports.goes_on hreports.stepped hsatisfied
      rw [hscan] at hsatisfied ⊢
      have htake := h.take hstart hevent (hgood index ⟨event, hevent, hbehavior, hadmits⟩)
      obtain ⟨group, hgroup⟩ := ih htake hreports.acceptable (by omega) hnext hsatisfied
      exact ⟨group, hgroup.after o⟩

theorem scan_took (ha : a.Shows c) (hrest : events.drop start = rest)
    (hsatisfied : (l.step.scan start a rest).isSatisfied = true) :
    ∃ group, Took l events c (l.Takes events c) start a.indices ∅ (l.step.scan start a rest)
      group := by
  refine scanFrom_took (fun _ h => h) ?_ (by simp [Outcome.isAcceptable]) (Nat.le_refl _) hrest
    hsatisfied
  exact ⟨fun i hi => absurd hi (IndexSet.not_mem_empty i),
    fun i hi => absurd hi (IndexSet.not_mem_empty i), ha, rfl, rfl, by simp⟩

theorem exists_cons_of_mem {start : Nat} {group : List Nat} (hascending : group.Pairwise (· < ·))
    (hle : ∀ i ∈ group, start ≤ i) (hmem : start ∈ group) :
    ∃ others, group = start :: others ∧ ∀ i ∈ others, start < i := by
  cases group with
  | nil => exact absurd hmem List.not_mem_nil
  | cons i others =>
    rw [List.pairwise_cons] at hascending
    rcases List.mem_cons.1 hmem with rfl | hmem
    · exact ⟨others, rfl, hascending.1⟩
    · have hi := hascending.1 start hmem
      have hstart := hle i (List.mem_cons_self ..)
      omega

theorem scan_first_took (hrest : events.drop start = event :: rest)
    (hsatisfied : (l.step.scan start {} (event :: rest)).isSatisfied = true) :
    event.behavior = l.behavior ∧ ∃ others,
      (∀ i ∈ others, l.Takes events ⟨event.time, none⟩ i) ∧
        Took l events ⟨event.time, none⟩ (fun i => i = start ∨ l.Takes events ⟨event.time, none⟩ i)
          start ∅ (IndexSet.insert ∅ start) (l.step.scan start {} (event :: rest))
          (start :: others) := by
  have hevent := Event.getElem?_of_drop hrest
  have hnext := Event.drop_succ hrest
  rcases @feed_first_cases l start event with hf | ⟨o, hf, hreports, hbehavior⟩
  · exact absurd hf (Expression.not_isFailure_of_isSatisfied hsatisfied)
  · unfold Expression.scan at hsatisfied ⊢
    have hscan := Expression.scanFrom_goes_on hf hreports.goes_on hreports.stepped hsatisfied
    rw [hscan] at hsatisfied ⊢
    obtain ⟨group, hgroup⟩ := scanFrom_took (fun _ h => .inr h) (Course.begun hevent)
      hreports.acceptable (Nat.le_succ _) hnext hsatisfied
    obtain ⟨others, rfl, hothers⟩ := exists_cons_of_mem hgroup.ascending
      (fun i hi => (hgroup.all_good i hi).2.1) (hgroup.has_first start (by simp))
    refine ⟨hbehavior, others, fun i hi => ?_, hgroup.after o⟩
    have hlt := hothers i hi
    exact (hgroup.all_good i (by simp [hi])).1.resolve_left (by omega)

end Link

end TimedPattern
