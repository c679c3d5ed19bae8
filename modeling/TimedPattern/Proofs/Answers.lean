import TimedPattern.Proofs.Matches
import TimedPattern.Proofs.MergeOrder

/-! # Three answers about the same matches -/

namespace TimedPattern

/-! ## Places in a list -/

theorem filterMap_getElem?_sublist {α : Type} {l : List α} {places : List Nat}
    (hascending : places.Pairwise (· < ·)) (hinside : ∀ i ∈ places, i < l.length) :
    (places.filterMap (l[·]?)).Sublist l ∧
      (places.filterMap (l[·]?)).length = places.length := by
  have hat : places.filterMap (l[·]?) = (places.pmap Fin.mk hinside).map (l[·]) := by
    clear hascending
    induction places with
    | nil => rfl
    | cons i rest ih =>
      have hi := List.getElem?_eq_getElem (hinside i (List.mem_cons_self ..))
      have hrest := ih fun j hj => hinside j (List.mem_cons_of_mem _ hj)
      simp [hi, hrest]
  rw [hat]
  refine ⟨List.map_getElem_sublist ?_, by simp⟩
  apply hascending.pmap
  intro i hi j hj hlt
  exact hlt

theorem length_le_of_behind {lists : List (List Nat)} {first stop : Nat} (hfirst : first ≤ stop)
    (hbounds : ∀ l ∈ lists, l ≠ [] ∧ ∀ i ∈ l, first ≤ i ∧ i < stop)
    (hbehind : lists.Pairwise fun l m => ∀ i ∈ l, ∀ j ∈ m, i < j) :
    first + lists.length ≤ stop := by
  -- By induction on the lists: each one moves `first` on past one of its numbers.
  induction lists generalizing first with
  | nil => exact hfirst
  | cons l rest ih =>
    obtain ⟨hne, hl⟩ := hbounds l (List.mem_cons_self ..)
    obtain ⟨i, hi⟩ := List.exists_mem_of_ne_nil l hne
    rw [List.pairwise_cons] at hbehind
    have hrest : i + 1 + rest.length ≤ stop := by
      apply ih (hl i hi).2 _ hbehind.2
      intro m hm
      obtain ⟨hmne, hbelow⟩ := hbounds m (List.mem_cons_of_mem _ hm)
      exact ⟨hmne, fun j hj => ⟨hbehind.1 m hm i hi j hj, (hbelow j hj).2⟩⟩
    have := (hl i hi).1
    rw [List.length_cons]
    omega

/-! ## Matches -/

namespace Pattern

variable {p : Pattern} {events : List Event}

theorem mem_findMatches {m : List Nat} (h : m ∈ p.findMatches events) :
    m ≠ [] ∧ m.Pairwise (· < ·) ∧ ∀ i ∈ m, i < events.length := by
  obtain ⟨t, ht, hm⟩ := List.mem_filterMap.1 h
  obtain ⟨hne, indices, resume, -, hindices⟩ := Trial.match?_eq_some hm
  refine ⟨hne, hindices ▸ indices.ascending, fun i hi => ?_⟩
  have := trialsFrom_within p.reset_steps_fresh 0 0 events t ht m hm i hi
  omega

theorem length_findMatches_le (p : Pattern) (events : List Event) :
    (p.findMatches events).length ≤ events.length := by
  have hbehind : (p.findMatches events).Pairwise fun m n => ∀ i ∈ m, ∀ j ∈ n, i < j :=
    List.pairwise_filterMap.2 (trialsFrom_ordered p.reset_steps_fresh 0 0 events)
  have hinside (m : List Nat) (hm : m ∈ p.findMatches events) :
      m ≠ [] ∧ ∀ i ∈ m, 0 ≤ i ∧ i < events.length :=
    ⟨(mem_findMatches hm).1, fun i hi => ⟨Nat.zero_le i, (mem_findMatches hm).2.2 i hi⟩⟩
  have hlength := length_le_of_behind (Nat.zero_le events.length) hinside hbehind
  omega

end Pattern

/-! ## Answers -/

namespace Collector

variable {c : Collector} {found : List (List Nat)}

/-- The times of all rows, in order. -/
def times (c : Collector) : List Int := c.sort.rows.map Row.micros

theorem pairwise_times (c : Collector) : c.times.Pairwise (· ≤ ·) :=
  List.pairwise_map.2 (pairwise_mergeSort_key Row.micros c.rows)

theorem length_sort (c : Collector) : c.sort.rows.length = c.rows.length := List.length_mergeSort ..

theorem exists_pattern_of_findMatches (h : c.findMatches.1 = .ok found) :
    ∃ p : Pattern, found = p.findMatches (c.sort.rows.map Row.event) := by
  obtain ⟨hrows, -⟩ := c.sort.pattern_frame
  unfold findMatches at h
  dsimp only at h
  cases hp : c.sort.pattern.1 with
  | error e =>
    rw [hp] at h
    simp [Except.map] at h
  | ok p =>
    rw [hp] at h
    refine ⟨p, ?_⟩
    rw [← hrows]
    exact (Except.ok.inj h).symm

theorem bounds_of_findMatches (h : c.findMatches.1 = .ok found) {m : List Nat} (hm : m ∈ found) :
    m ≠ [] ∧ m.Pairwise (· < ·) ∧ ∀ i ∈ m, i < c.rows.length := by
  obtain ⟨p, rfl⟩ := exists_pattern_of_findMatches h
  have hbounds := Pattern.mem_findMatches hm
  rwa [List.length_map, length_sort] at hbounds

theorem length_le_of_findMatches (h : c.findMatches.1 = .ok found) :
    found.length ≤ c.rows.length := by
  obtain ⟨p, rfl⟩ := exists_pattern_of_findMatches h
  have hlength := p.length_findMatches_le (c.sort.rows.map Row.event)
  rwa [List.length_map, length_sort] at hlength

theorem firstMatch_of_findMatches (h : c.findMatches.1 = .ok found) :
    ∃ first, c.firstMatch.1 = .ok first ∧ first.Sublist c.times ∧
      first.length = (found.head?.getD []).length := by
  have hrows : c.findMatches.2.rows = c.sort.rows := c.sort.pattern_frame.1
  unfold firstMatch
  dsimp only
  rw [h, hrows]
  cases found with
  | nil => exact ⟨[], rfl, List.nil_sublist _, rfl⟩
  | cons m rest =>
    obtain ⟨-, hascending, hinside⟩ := bounds_of_findMatches h (List.mem_cons_self ..)
    rw [← length_sort] at hinside
    obtain ⟨hsublist, hlength⟩ := filterMap_getElem?_sublist hascending hinside
    have hfirst : (m.filterMap fun i => c.sort.rows[i]?.map Row.micros) =
        (m.filterMap (c.sort.rows[·]?)).map Row.micros := List.map_filterMap.symm
    refine ⟨(m.filterMap (c.sort.rows[·]?)).map Row.micros, congrArg Except.ok hfirst,
      hsublist.map Row.micros, ?_⟩
    rw [List.length_map]
    exact hlength

/-- Three answers that fit each other and the rows of a collector. -/
structure Consistent (c : Collector) (matched : Bool) (count : Nat) (first : List Int) : Prop where
  matched_iff : matched = true ↔ 0 < count
  count_iff : 0 < count ↔ first ≠ []
  count_le : count ≤ c.rows.length
  ascending : first.Pairwise (· ≤ ·)
  sublist : first.Sublist c.times

theorem consistent_of_findMatches (h : c.findMatches.1 = .ok found) :
    ∃ first, c.firstMatch.1 = .ok first ∧
      c.Consistent (! found.isEmpty) found.length first := by
  obtain ⟨first, hfirst, hsublist, hlength⟩ := firstMatch_of_findMatches h
  refine ⟨first, hfirst, ?_, ?_, length_le_of_findMatches h, ?_, hsublist⟩
  · cases found <;> simp
  · rw [← List.length_pos_iff, hlength]
    cases found with
    | nil => simp
    | cons m rest =>
      have hne := (bounds_of_findMatches h (List.mem_cons_self ..)).1
      simp [List.length_pos_iff, hne]
  · exact c.pairwise_times.sublist hsublist

/-! ## Questions in any order -/

theorem Holds.foldl_asked {offered : Option String} {rows : List (Int × String)}
    (h : c.Holds offered rows) (asked : List Aggregate) :
    (asked.foldl Collector.asked c).Holds offered rows := by
  induction asked generalizing c with
  | nil => exact h
  | cons function rest ih =>
    apply ih
    rw [asked_eq]
    exact h.findMatches

/-- If the pattern cannot be read, all three answers are the same fault. Otherwise they fit each
other, and no row is looked up that is not there. Whatever has been asked before, and in which
order, the answers are the same. -/
theorem answers_agree (h : c.Reached) :
    ((∃ e, c.hasMatch.1 = .error e ∧ c.countMatches.1 = .error e ∧ c.firstMatch.1 = .error e) ∨
      ∃ found first, c.findMatches.1 = .ok found ∧ (∀ m ∈ found, ∀ i ∈ m, i < c.rows.length) ∧
        c.hasMatch.1 = .ok (! found.isEmpty) ∧ c.countMatches.1 = .ok found.length ∧
          c.firstMatch.1 = .ok first ∧ c.Consistent (! found.isEmpty) found.length first) ∧
      ∀ asked : List Aggregate,
        (asked.foldl Collector.asked c).hasMatch.1 = c.hasMatch.1 ∧
          (asked.foldl Collector.asked c).countMatches.1 = c.countMatches.1 ∧
            (asked.foldl Collector.asked c).firstMatch.1 = c.firstMatch.1 := by
  constructor
  · cases hfound : c.findMatches.1 with
    | error e =>
      left
      unfold hasMatch countMatches firstMatch
      dsimp only
      rw [hfound]
      exact ⟨e, rfl, rfl, rfl⟩
    | ok found =>
      right
      obtain ⟨first, hfirst, hconsistent⟩ := consistent_of_findMatches hfound
      refine ⟨found, first, rfl, ?_, ?_, ?_, hfirst, hconsistent⟩
      · intro m hm
        exact (bounds_of_findMatches hfound hm).2.2
      · unfold hasMatch
        dsimp only
        rw [hfound]
        rfl
      · unfold countMatches
        dsimp only
        rw [hfound]
        rfl
  · intro asked
    obtain ⟨offered, rows, hholds⟩ := h.holds
    exact (hholds.foldl_asked asked).answers_eq hholds

/-- One part has been asked before the other one brings in an earlier row and a later one. -/
theorem answers_agree_merged : ∃ c : Collector,
    c.Reached ∧ c.rows.map Row.micros = [500000, 0, 5000000] ∧ c.hasMatch.1 = .ok true ∧
      c.countMatches.1 = .ok 1 ∧ c.firstMatch.1 = .ok [0, 500000] ∧
        c.Consistent true 1 [0, 500000] ∧
          ∀ asked : List Aggregate,
            (asked.foldl Collector.asked c).firstMatch.1 = .ok [0, 500000] := by
  let a := (Collector.empty.offerPattern "A -> B => Seq").record 500000 "B"
  let b := (Collector.empty.record 0 "A").record 5000000 "A"
  have hreached : ((a.asked .count).merge b).Reached :=
    .merge (.asked _ (.record _ _ (.offerPattern _ .empty))) (.record _ _ (.record _ _ .empty))
  have hasked : a.asked .count = a.pattern.2 := by
    rw [asked_eq, findMatches]
    rw [show a.sort = a from congrArg (fun rows => { a with rows }) (List.mergeSort_singleton _)]
  have hrows : (a.pattern.2.merge b).rows =
      [⟨500000, ⟨0⟩⟩, ⟨0, ⟨1⟩⟩, ⟨5000000, ⟨1⟩⟩] := by decide +kernel
  have hsort : (a.pattern.2.merge b).sort = { a.pattern.2.merge b with
      rows := [⟨0, ⟨1⟩⟩, ⟨500000, ⟨0⟩⟩, ⟨5000000, ⟨1⟩⟩] } :=
    sort_eq (by decide) (by decide +kernel)
  have hfound : (a.pattern.2.merge b).findMatches.1.toOption = some [[0, 1]] := by
    unfold findMatches
    rw [hsort]
    decide +kernel
  have hfirst : (a.pattern.2.merge b).firstMatch.1.toOption = some [0, 500000] := by
    unfold firstMatch findMatches
    rw [hsort]
    decide +kernel
  rw [hasked] at hreached
  obtain ⟨hanswers, hany⟩ := answers_agree hreached
  rcases hanswers with ⟨e, -, -, he⟩ | ⟨found, first, hok, -, hmatched, hcount, hok', hconsistent⟩
  · rw [he] at hfirst
    cases hfirst
  · rw [hok] at hfound
    rw [hok'] at hfirst
    obtain rfl : found = [[0, 1]] := Option.some.inj hfound
    obtain rfl : first = [0, 500000] := Option.some.inj hfirst
    refine ⟨a.pattern.2.merge b, hreached, ?_, hmatched, hcount, hok', hconsistent, ?_⟩
    · rw [hrows]
      rfl
    · intro asked
      rw [(hany asked).2.2, hok']

end Collector

end TimedPattern
