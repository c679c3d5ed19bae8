import TimedPattern.Pattern.Search
import TimedPattern.Proofs.Frame

/-!
# Matches are ascending and disjoint

A trial only collects events that it looks at, and the next one starts after the last of them.
-/

namespace TimedPattern

/-! ## Sets of indices -/

namespace IndexSet

/-- The set holds no index before `first`, nor `stop` or one after it. -/
def Within (first stop : Nat) (s : IndexSet) : Prop := ∀ i ∈ s, first ≤ i ∧ i < stop

theorem within_empty (first stop : Nat) : (∅ : IndexSet).Within first stop :=
  fun i hi => absurd hi (not_mem_empty i)

theorem le_last?_of_mem {s : IndexSet} {i : Nat} (h : i ∈ s) :
    ∃ last, s.last? = some last ∧ i ≤ last := by
  rw [mem_iff_mem_toList] at h
  have hne : s.toList ≠ [] := List.ne_nil_of_mem h
  refine ⟨s.toList.getLast hne, List.getLast?_eq_some_getLast hne, ?_⟩
  have hascending := s.ascending
  rw [← List.dropLast_concat_getLast hne] at h hascending
  rw [List.pairwise_append] at hascending
  rcases List.mem_append.1 h with h | h
  · have := hascending.2.2 i h _ (List.mem_singleton.2 rfl)
    omega
  · exact Nat.le_of_eq (List.mem_singleton.1 h)

end IndexSet

/-! ## Scans -/

namespace Scan

/-- A scan has met no index outside some bounds. -/
structure Within (first stop : Nat) (s : Scan) : Prop where
  expression : s.expression.indices.Within first stop
  carried : s.carried.indices.Within first stop
  progress : ∀ p, s.progress = some p → first ≤ p.index ∧ p.index < stop

theorem Within.after {s : Scan} {first stop : Nat} (o : Outcome) (h : s.Within first stop) :
    (s.after o).Within first stop :=
  ⟨h.expression, h.carried, h.progress⟩

theorem attempt_indices (s : Scan) : s.attempt.indices = s.collected.indices := by
  unfold attempt
  split
  · split
    · exact s.collected.indices_handOver _ _
    · rfl
  · rfl

theorem Within.attempt {s : Scan} {first stop : Nat} (h : s.Within first stop) :
    s.attempt.indices.Within first stop := by
  rw [attempt_indices]
  unfold collected
  split
  · split
    · intro i hi
      rcases Attempt.mem_collect.1 hi with hi | hi
      · exact h.carried i hi
      · exact h.expression i hi
    · exact h.carried
  · exact h.carried

theorem Within.le_anchor {s : Scan} {first stop : Nat} (h : s.Within first stop)
    (hstart : first ≤ s.start) : first ≤ s.anchor := by
  unfold anchor
  cases hp : s.progress with
  | none => exact hstart
  | some p => exact (h.progress p hp).1

end Scan

namespace Expression

theorem start_scanFrom (start : Nat) (progress : Option Progress) (last : Outcome) (index : Nat)
    (e : Expression) (a : Attempt) (events : List Event) :
    (e.scanFrom start progress last index a events).start = start := by
  induction events generalizing progress last index e a with
  | nil => rfl
  | cons event rest ih =>
    unfold scanFrom
    dsimp only
    split
    · rfl
    · split
      · rfl
      · exact ih _ _ _ _ _

theorem reset_scanFrom (start : Nat) (progress : Option Progress) (last : Outcome) (index : Nat)
    (e : Expression) (a : Attempt) (events : List Event) :
    (e.scanFrom start progress last index a events).expression.reset = e.reset := by
  induction events generalizing progress last index e a with
  | nil => rfl
  | cons event rest ih =>
    have hlimits := (e.feed_frame a index event).limits
    unfold scanFrom
    dsimp only
    split
    · exact hlimits
    · split
      · exact hlimits
      · exact (ih _ _ _ _ _).trans hlimits

theorem scanFrom_within {first stop start index : Nat} {progress : Option Progress}
    {last : Outcome} {e : Expression} {a : Attempt} {events : List Event}
    (he : e.indices.Within first stop) (ha : a.indices.Within first stop)
    (hp : ∀ p, progress = some p → first ≤ p.index ∧ p.index < stop)
    (hfirst : first ≤ index) (hstop : index + events.length ≤ stop) :
    (e.scanFrom start progress last index a events).Within first stop := by
  induction events generalizing progress last index e a with
  | nil => exact ⟨he, ha, hp⟩
  | cons event rest ih =>
    rw [List.length_cons] at hstop
    have hf := e.feed_frame a index event
    have he' : (e.feed index event a).expression.indices.Within first stop := by
      intro i hi
      rcases hf.matched i hi with hi | rfl
      · exact he i hi
      · omega
    have ha' : (e.feed index event a).attempt.indices.Within first stop := by
      intro i hi
      rcases hf.attempt.collected i hi with hi | hi | rfl
      · exact ha i hi
      · exact he i hi
      · omega
    unfold scanFrom
    dsimp only
    split
    · exact ⟨he', ha', hp⟩
    · split
      · exact ⟨he', ha', hp⟩
      · refine Scan.Within.after _ (ih he' ha' (fun p h => ?_) (by omega) (by omega))
        split at h
        · obtain rfl := Option.some.inj h
          exact ⟨hfirst, by dsimp only; omega⟩
        · exact hp p h

theorem scan_within {first stop start : Nat} {e : Expression} {a : Attempt} {events : List Event}
    (he : e.indices.Within first stop) (ha : a.indices.Within first stop) (hfirst : first ≤ start)
    (hstop : start + events.length ≤ stop) : (e.scan start a events).Within first stop :=
  scanFrom_within he ha (by simp) hfirst hstop

end Expression

/-! ## Trials -/

namespace Trial

variable {index resume : Nat} {a : Attempt} {events : List Event} {step : Expression}
variable {steps : List Expression} {indices : IndexSet}

theorem run_singleton_complete
    (h : (run index a events [step]).verdict = .complete indices resume) :
    events ≠ [] ∧ (step.scan index a events).isSatisfied = true ∧
      (step.scan index a events).attempt.indices = indices := by
  rw [run] at h
  split at h
  · simp at h
  · rename_i hne
    dsimp only at h
    split at h
    · rename_i hsatisfied
      simp only [Verdict.complete.injEq] at h
      exact ⟨by simpa using hne, hsatisfied, h.1⟩
    · simp at h

theorem run_cons_complete {next : Expression}
    (h : (run index a events (step :: next :: steps)).verdict = .complete indices resume) :
    events ≠ [] ∧ (step.scan index a events).isSatisfied = true ∧
      (run ((step.scan index a events).anchor + 1) (step.scan index a events).attempt
        (events.drop ((step.scan index a events).anchor + 1 - index)) (next :: steps)).verdict =
        .complete indices resume := by
  rw [run] at h
  split at h
  · simp at h
  · rename_i hne
    dsimp only at h
    split at h
    · rename_i hsatisfied
      refine ⟨by simpa using hne, hsatisfied, ?_⟩
      have hresume : (step.scan index a events).resume false =
          (step.scan index a events).anchor + 1 := by simp [Scan.resume]
      rw [← hresume]
      exact h
    · simp at h

theorem run_within {first stop : Nat} (hsteps : ∀ step ∈ steps, ∀ i, ¬ i ∈ step.indices)
    (ha : a.indices.Within first stop) (hfirst : first ≤ index)
    (hstop : events ≠ [] → index + events.length ≤ stop)
    (h : (run index a events steps).verdict = .complete indices resume) :
    indices.Within first stop := by
  induction steps generalizing index a events with
  | nil => simp [run] at h
  | cons step rest ih =>
    have hscan (hne : events ≠ []) : (step.scan index a events).Within first stop :=
      Expression.scan_within (fun i hi => absurd hi (hsteps step (by simp) i)) ha hfirst
        (hstop hne)
    cases rest with
    | nil =>
      obtain ⟨hne, -, rfl⟩ := run_singleton_complete h
      exact (hscan hne).attempt
    | cons next rest =>
      obtain ⟨hne, -, h⟩ := run_cons_complete h
      have hs := hscan hne
      have hstart : (step.scan index a events).start = index := Expression.start_scanFrom ..
      have hanchor := hs.le_anchor (by omega)
      refine ih (fun step hstep => hsteps step (by simp [hstep])) hs.attempt (by omega)
        (fun hdrop => ?_) h
      have hlen := hstop hne
      have hlt := Nat.lt_of_not_le fun hle => hdrop (List.drop_eq_nil_of_le hle)
      rw [List.length_drop]
      omega

theorem match?_eq_some {t : Trial} {m : List Nat} (h : t.match? = some m) :
    m ≠ [] ∧ ∃ indices resume, t.verdict = .complete indices resume ∧ indices.toList = m := by
  unfold match? at h
  split at h
  · rename_i indices resume hv
    split at h
    · simp at h
    · rename_i hne
      obtain rfl := Option.some.inj h
      refine ⟨fun hnil => hne ?_, indices, resume, hv, rfl⟩
      simp [IndexSet.isEmpty, hnil]
  · simp at h

theorem lt_next? {t : Trial} {m : List Nat} {next : Nat} (hm : t.match? = some m)
    (hnext : t.next? = some next) : ∀ i ∈ m, i < next := by
  obtain ⟨-, indices, resume, hv, rfl⟩ := match?_eq_some hm
  intro i hi
  obtain ⟨last, hlast, hle⟩ := IndexSet.le_last?_of_mem (s := indices) hi
  rw [next?, hv] at hnext
  simp only [hlast, Option.some.injEq] at hnext
  omega

end Trial

/-! ## Searches -/

namespace Pattern

theorem match?_run_within {p : Pattern} (hsteps : ∀ step ∈ p.steps, ∀ i, ¬ i ∈ step.indices)
    {index : Nat} {events : List Event} {m : List Nat}
    (hm : (Trial.run index {} events p.steps).match? = some m) :
    ∀ i ∈ m, index ≤ i ∧ i < index + events.length := by
  obtain ⟨-, indices, resume, hv, rfl⟩ := Trial.match?_eq_some hm
  exact Trial.run_within hsteps (IndexSet.within_empty _ _) (Nat.le_refl _)
    (fun _ => Nat.le_refl _) hv

theorem trialsFrom_within {p : Pattern} (hsteps : ∀ step ∈ p.steps, ∀ i, ¬ i ∈ step.indices)
    (index skip : Nat) (events : List Event) :
    ∀ t ∈ p.trialsFrom index skip events, ∀ m, t.match? = some m →
      ∀ i ∈ m, index + skip ≤ i ∧ i < index + events.length := by
  fun_induction trialsFrom p index skip events with
  | case1 index skip => simp
  | case2 index skip event rest ih =>
    intro t ht m hm i hi
    have := ih t ht m hm i hi
    rw [List.length_cons]
    omega
  | case3 index event rest t next hnext ih =>
    intro u hu m hm i hi
    rcases List.mem_cons.1 hu with rfl | hu
    · exact match?_run_within hsteps hm i hi
    · have := ih u hu m hm i hi
      rw [List.length_cons]
      omega
  | case4 index event rest t hnext =>
    intro u hu m hm i hi
    rw [List.mem_singleton.1 hu] at hm
    exact match?_run_within hsteps hm i hi

theorem trialsFrom_ordered {p : Pattern} (hsteps : ∀ step ∈ p.steps, ∀ i, ¬ i ∈ step.indices)
    (index skip : Nat) (events : List Event) :
    (p.trialsFrom index skip events).Pairwise fun t u => ∀ m, t.match? = some m →
      ∀ n, u.match? = some n → ∀ i ∈ m, ∀ j ∈ n, i < j := by
  fun_induction trialsFrom p index skip events with
  | case1 index skip => exact .nil
  | case2 index skip event rest ih => exact ih
  | case3 index event rest t next hnext ih =>
    refine List.pairwise_cons.2 ⟨fun u hu m hm n hn i hi j hj => ?_, ih⟩
    have hi := Trial.lt_next? hm hnext i hi
    have hj := trialsFrom_within hsteps _ _ _ u hu n hn j hj
    omega
  | case4 index event rest t hnext => exact List.pairwise_singleton _ _

theorem reset_steps_fresh (p : Pattern) :
    ∀ step ∈ p.reset.steps, ∀ i, ¬ i ∈ step.indices := by
  intro step hstep
  obtain ⟨step, -, rfl⟩ := List.mem_map.1 hstep
  exact step.not_mem_indices_reset

/-- A match is a non-empty ascending list of indices of events, and every match comes after all of
the one before. -/
theorem findMatches_ascending_disjoint (p : Pattern) (events : List Event) :
    (∀ m ∈ p.findMatches events,
      m ≠ [] ∧ m.Pairwise (· < ·) ∧ ∀ i ∈ m, i < events.length) ∧
      (p.findMatches events).Pairwise fun m n => ∀ i ∈ m, ∀ j ∈ n, i < j := by
  have hsteps := p.reset_steps_fresh
  constructor
  · intro m hm
    obtain ⟨t, ht, hm⟩ := List.mem_filterMap.1 hm
    refine ⟨(Trial.match?_eq_some hm).1, ?_, fun i hi => ?_⟩
    · obtain ⟨-, indices, -, -, rfl⟩ := Trial.match?_eq_some hm
      exact indices.ascending
    · have := trialsFrom_within hsteps 0 0 events t ht m hm i hi
      omega
  · unfold findMatches
    rw [List.pairwise_filterMap]
    exact trialsFrom_ordered hsteps 0 0 events

end Pattern

end TimedPattern
