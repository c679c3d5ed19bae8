import TimedPattern.Proofs.Chain.Scan
import TimedPattern.Proofs.Compiled

/-! # Matches of chains -/

namespace TimedPattern

/-! ## One group after the other -/

/-- The indices of a trial, apart from those that it had collected before, are groups in order. -/
structure Grouped (index : Nat) (collected indices : IndexSet) (groups : List (List Nat)) :
    Prop where
  ascending : groups.flatten.Pairwise (· < ·)
  le : ∀ i ∈ groups.flatten, index ≤ i
  mem_iff : ∀ i, i ∈ indices ↔ i ∈ collected ∨ i ∈ groups.flatten

theorem Grouped.nil (index : Nat) (indices : IndexSet) : Grouped index indices indices [] :=
  ⟨.nil, by simp, by simp⟩

theorem Grouped.cons {l : Link} {events : List Event} {c : Clock} {good : Nat → Prop} {start : Nat}
    {collected first indices : IndexSet} {s : Scan} {group : List Nat} {groups : List (List Nat)}
    (ht : l.Took events c good start collected first s group)
    (h : Grouped (s.anchor + 1) s.attempt.indices indices groups) :
    Grouped start collected indices (group :: groups) := by
  refine ⟨?_, fun i hi => ?_, fun i => ?_⟩
  · rw [List.flatten_cons, List.pairwise_append]
    refine ⟨ht.ascending, h.ascending, fun i hi j hj => ?_⟩
    have hi := (ht.all_good i hi).2.2
    have hj := h.le j hj
    omega
  · rw [List.flatten_cons, List.mem_append] at hi
    rcases hi with hi | hi
    · exact (ht.all_good i hi).2.1
    · have hi := h.le i hi
      have hstart := ht.start_le
      omega
  · rw [h.mem_iff, ht.indices, List.flatten_cons, List.mem_append, or_assoc]

/-! ## Trials -/

namespace Trial

theorem drop_rest {events rest : List Event} {index n : Nat} (hrest : events.drop index = rest)
    (hn : index ≤ n) : events.drop n = rest.drop (n - index) := by
  rw [← hrest, List.drop_drop]
  congr 1
  omega

theorem run_fits {events rest : List Event} {c : Clock} {a : Attempt} {index resume : Nat}
    {links : List Link} {indices : IndexSet} (ha : a.Shows c) (hrest : events.drop index = rest)
    (h : (run index a rest (links.map Link.step)).verdict = .complete indices resume) :
    ∃ groups, Fits events c links groups ∧ Grouped index a.indices indices groups := by
  induction links generalizing c a index rest with
  | nil => simp [run] at h
  | cons l links ih =>
    cases links with
    | nil =>
      obtain ⟨-, hsatisfied, rfl⟩ := run_singleton_complete h
      obtain ⟨group, ht⟩ := Link.scan_took ha hrest hsatisfied
      exact ⟨[group], .step (fun i hi => (ht.all_good i hi).1) ht.count (.done _),
        .cons ht (.nil _ _)⟩
    | cons next links =>
      obtain ⟨-, hsatisfied, hnext⟩ := run_cons_complete h
      obtain ⟨group, ht⟩ := Link.scan_took ha hrest hsatisfied
      -- The next step starts with the clock that this one has moved on.
      obtain ⟨groups, hfits, hgrouped⟩ :=
        ih ht.clock (drop_rest hrest (Nat.le_succ_of_le ht.start_le)) hnext
      exact ⟨group :: groups, .step (fun i hi => (ht.all_good i hi).1) ht.count hfits,
        .cons ht hgrouped⟩

theorem run_split {events rest : List Event} {index resume : Nat} {links : List Link}
    {indices : IndexSet} (hrest : events.drop index = rest)
    (h : (run index {} rest (links.map Link.step)).verdict = .complete indices resume) :
    ∃ groups, Split events links groups ∧ Grouped index ∅ indices groups := by
  cases links with
  | nil => simp [run] at h
  | cons l links =>
    cases rest with
    | nil => simp [run] at h
    | cons event rest =>
      have hevent := Event.getElem?_of_drop hrest
      cases links with
      | nil =>
        obtain ⟨-, hsatisfied, rfl⟩ := run_singleton_complete h
        obtain ⟨hbehavior, others, htakes, ht⟩ := Link.scan_first_took hrest hsatisfied
        exact ⟨[index :: others], .start hevent hbehavior htakes ht.count (.done _),
          .cons ht (.nil _ _)⟩
      | cons next links =>
        obtain ⟨-, hsatisfied, hnext⟩ := run_cons_complete h
        obtain ⟨hbehavior, others, htakes, ht⟩ := Link.scan_first_took hrest hsatisfied
        have hdrop := drop_rest hrest (Nat.le_succ_of_le ht.start_le)
        rw [← List.map_cons] at hnext
        obtain ⟨groups, hfits, hgrouped⟩ := run_fits ht.clock hdrop hnext
        exact ⟨(index :: others) :: groups, .start hevent hbehavior htakes ht.count hfits,
          .cons ht hgrouped⟩

end Trial

/-! ## Patterns -/

namespace Expression

/-- The expression is a single behavior. -/
def IsLeaf (e : Expression) : Prop := ∃ behavior name t, e = leaf behavior name t

theorem exists_link {r : Registry} {e : Expression} (hleaf : e.IsLeaf) (hcompiled : e.Compiled r)
    (hfilled : e.Filled) : ∃ l : Link, e = l.step := by
  obtain ⟨behavior, name, t, rfl⟩ := hleaf
  obtain ⟨occurrences, timing, hoccurrences, htiming⟩ := hfilled.leaf_limits
  refine ⟨⟨behavior, name, occurrences, timing⟩, ?_⟩
  obtain ⟨_, _, matched⟩ := t
  obtain rfl : matched = ∅ := hcompiled.2.2.fresh
  obtain rfl := hoccurrences
  obtain rfl := htiming
  rfl

theorem exists_links {r : Registry} {steps : List Expression} (hleaves : ∀ e ∈ steps, e.IsLeaf)
    (hcompiled : ∀ e ∈ steps, e.Compiled r ∧ e.Filled) :
    ∃ links : List Link, steps = links.map Link.step := by
  induction steps with
  | nil => exact ⟨[], rfl⟩
  | cons e steps ih =>
    obtain ⟨links, hlinks⟩ := ih (fun f hf => hleaves f (by simp [hf]))
      (fun f hf => hcompiled f (by simp [hf]))
    obtain ⟨he, hf⟩ := hcompiled e (by simp)
    obtain ⟨l, hl⟩ := exists_link (hleaves e (by simp)) he hf
    exact ⟨l :: links, by rw [List.map_cons, ← hl, ← hlinks]⟩

end Expression

namespace Pattern

theorem exists_run_of_mem_trialsFrom {p : Pattern} {events : List Event} {index skip : Nat}
    {rest : List Event} {t : Trial} (hrest : events.drop index = rest)
    (ht : t ∈ p.trialsFrom index skip rest) :
    ∃ i, t = Trial.run i {} (events.drop i) p.steps := by
  fun_induction trialsFrom p index skip rest with
  | case1 => exact absurd ht List.not_mem_nil
  | case2 index skip event rest ih =>
    exact ih (Event.drop_succ hrest) ht
  | case3 index event rest u next hnext ih =>
    rcases List.mem_cons.1 ht with rfl | ht
    · exact ⟨index, by rw [hrest]⟩
    · exact ih (Event.drop_succ hrest) ht
  | case4 index event rest u hnext =>
    rw [List.mem_singleton] at ht
    exact ⟨index, by rw [ht, hrest]⟩

/-- Every match of a pattern whose steps are single behaviors splits into groups, one for each step,
in ascending order. -/
theorem findMatches_split {d : Defaults} {registry : Registry} {text : String} {p : Pattern}
    (hparse : (parse d registry text).1 = .ok p) (hleaves : ∀ step ∈ p.steps, step.IsLeaf)
    (events : List Event) :
    ∃ links : List Link, p.steps = links.map Link.step ∧ ∀ m ∈ p.findMatches events,
      ∃ groups, Split events links groups ∧ groups.flatten = m ∧
        groups.Pairwise fun g h => ∀ i ∈ g, ∀ j ∈ h, i < j := by
  obtain ⟨links, hlinks⟩ := Expression.exists_links hleaves (parse_compiled hparse)
  refine ⟨links, hlinks, fun m hm => ?_⟩
  obtain ⟨t, ht, hm⟩ := List.mem_filterMap.1 hm
  obtain ⟨-, indices, resume, hverdict, rfl⟩ := Trial.match?_eq_some hm
  obtain ⟨i, rfl⟩ := exists_run_of_mem_trialsFrom List.drop_zero ht
  have hreset : p.reset.steps = links.map Link.step := by
    show p.steps.map Expression.reset = _
    rw [hlinks, List.map_map]
    rfl
  rw [hreset] at hverdict
  obtain ⟨groups, hsplit, hgrouped⟩ := Trial.run_split rfl hverdict
  refine ⟨groups, hsplit, ?_, (List.pairwise_flatten.1 hgrouped.ascending).2⟩
  apply IndexSet.eq_of_ascending hgrouped.ascending indices.ascending
  intro j
  rw [← IndexSet.mem_iff_mem_toList, hgrouped.mem_iff]
  simp

/-- The optional step finds no event, so the step after it measures from the first one, and it may
wait as long as that one could. -/
theorem findMatches_split_optional :
    ∃ p : Pattern, (parse {} .empty "A[1:2]\x7bs 5\x7d -> B[?] -> C => P").1 = .ok p ∧
      ∃ events, p.findMatches events = [[0, 1, 3]] ∧
        ∃ links groups, p.steps = links.map Link.step ∧ Split events links groups ∧
          groups.flatten = [0, 1, 3] := by
  obtain ⟨p, hp, events, hmatches, hleaves⟩ : ∃ p : Pattern,
      (parse {} .empty "A[1:2]\x7bs 5\x7d -> B[?] -> C => P").1 = .ok p ∧
        ∃ events, p.findMatches events = [[0, 1, 3]] ∧ ∀ step ∈ p.steps, step.IsLeaf := by
    refine ⟨_, rfl, [⟨⟨0⟩, 0⟩, ⟨⟨0⟩, 0.5⟩, ⟨⟨3⟩, 0.7⟩, ⟨⟨2⟩, 4⟩], rfl, ?_⟩
    rintro step (_ | ⟨_, _ | ⟨_, _ | ⟨_, ⟨⟩⟩⟩⟩) <;> exact ⟨_, _, _, rfl⟩
  obtain ⟨links, hlinks, hsplit⟩ := findMatches_split hp hleaves events
  obtain ⟨groups, hgroups, hflatten, -⟩ := hsplit [0, 1, 3] (by rw [hmatches]; simp)
  exact ⟨p, hp, events, hmatches, links, groups, hlinks, hgroups, hflatten⟩

end Pattern

end TimedPattern
