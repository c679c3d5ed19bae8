import TimedPattern.Proofs.Merging

/-!
# The order of merging

Answers depend on the pattern text and the stable sort of the rows, and on nothing else.
-/

namespace TimedPattern.Collector

/-- The collectors that come about by calls in any order. Patterns may be offered at any time, and
every part may be asked and merged any number of times. -/
inductive Reached : Collector → Prop
  | empty : Reached .empty
  | offerPattern {c : Collector} (text : String) : Reached c → Reached (c.offerPattern text)
  | record {c : Collector} (micros : Int) (name : String) :
    Reached c → Reached (c.record micros name)
  | merge {c other : Collector} : Reached c → Reached other → Reached (c.merge other)
  | asked {c : Collector} (function : Aggregate) : Reached c → Reached (c.asked function)

theorem Reached.holds {c : Collector} (h : c.Reached) : ∃ offered rows, c.Holds offered rows := by
  induction h with
  | empty => exact ⟨_, _, .empty⟩
  | offerPattern text _ ih =>
    obtain ⟨offered, rows, hc⟩ := ih
    exact ⟨_, _, hc.offerPattern text⟩
  | record micros name _ ih =>
    obtain ⟨offered, rows, hc⟩ := ih
    exact ⟨_, _, hc.record micros name⟩
  | merge _ _ ihc iho =>
    obtain ⟨offered, rows, hc⟩ := ihc
    obtain ⟨late, more, hother⟩ := iho
    exact ⟨_, _, hc.merge hother⟩
  | asked function _ ih =>
    obtain ⟨offered, rows, hc⟩ := ih
    refine ⟨offered, rows, ?_⟩
    rw [asked_eq]
    exact hc.findMatches

theorem sort_eq {c : Collector} {ordered : List Row}
    (hordered : ordered.Pairwise fun a b => a.micros ≤ b.micros)
    (hsame : ∀ row ∈ c.rows ++ ordered,
      c.rows.filter (·.micros = row.micros) = ordered.filter (·.micros = row.micros)) :
    c.sort = { c with rows := ordered } := by
  have hfilter (k : Int) : c.rows.filter (·.micros = k) = ordered.filter (·.micros = k) := by
    by_cases hk : ∃ row ∈ c.rows ++ ordered, row.micros = k
    · obtain ⟨row, hrow, rfl⟩ := hk
      exact hsame row hrow
    -- At any other time there are no rows.
    · have hnone {rows : List Row} (hrows : rows ⊆ c.rows ++ ordered) :
          rows.filter (·.micros = k) = [] :=
        List.filter_eq_nil_iff.2 fun row hrow htime =>
          hk ⟨row, hrows hrow, of_decide_eq_true htime⟩
      rw [hnone (List.subset_append_left ..), hnone (List.subset_append_right ..)]
  have hrows : (c.rows.mergeSort fun a b => a.micros ≤ b.micros) = ordered := by
    rw [(mergeSort_eq_iff Row.micros).2 hfilter]
    exact List.mergeSort_of_pairwise (by simpa using hordered)
  exact congrArg (fun rows => { c with rows }) hrows

/-! ## Collectors that hold the same -/

theorem exists_unread (offered : Option String) (rows : List (Int × String)) :
    ∃ d : Collector, d.Holds offered rows ∧ d.compiled = none := by
  cases offered with
  | none => exact ⟨_, Holds.empty.recordAll rfl rows⟩
  | some text => exact ⟨_, (Holds.empty.offerPattern text).recordAll rfl rows⟩

namespace Holds

variable {c d : Collector} {offered late : Option String} {rows more : List (Int × String)}

theorem found_eq (h : c.Holds offered rows) (hd : d.Holds offered rows) :
    c.findMatches.1 = d.findMatches.1 := by
  obtain ⟨u, hu, hunread⟩ := exists_unread offered rows
  rw [h.findMatches_eq hu hunread, hd.findMatches_eq hu hunread]

theorem first_eq (h : c.Holds offered rows) (hd : d.Holds offered rows) :
    c.firstMatch.1 = d.firstMatch.1 := by
  obtain ⟨u, hu, hunread⟩ := exists_unread offered rows
  rw [h.firstMatch_eq hu hunread, hd.firstMatch_eq hu hunread]

theorem answers_eq (h : c.Holds offered rows) (hd : d.Holds offered rows) :
    c.hasMatch.1 = d.hasMatch.1 ∧ c.countMatches.1 = d.countMatches.1 ∧
      c.firstMatch.1 = d.firstMatch.1 := by
  have hfound := h.found_eq hd
  refine ⟨?_, ?_, h.first_eq hd⟩
  · unfold Collector.hasMatch
    dsimp only
    rw [hfound]
  · unfold Collector.countMatches
    dsimp only
    rw [hfound]

/-! ## Parts that change places -/

theorem exists_row (h : c.Holds offered rows) {row : Int × String} (hrow : row ∈ rows) :
    ∃ r ∈ c.rows, r.micros = row.1 := by
  have hmem : (row.1, some row.2) ∈ (known rows).mergeSort fun a b => a.1 ≤ b.1 :=
    List.mem_mergeSort.2 (List.mem_map_of_mem hrow)
  rw [← h.rows, List.mem_mergeSort] at hmem
  obtain ⟨r, hr, hshown⟩ := List.mem_map.1 hmem
  exact ⟨r, hr, (Prod.mk.inj hshown).1⟩

theorem swap (h : c.Holds (late <|> offered) (more ++ rows))
    (htexts : ∀ t ∈ offered, ∀ u ∈ late, t = u)
    (hties : ∀ x ∈ rows, ∀ y ∈ more, x.1 ≠ y.1) : c.Holds (offered <|> late) (rows ++ more) := by
  have hoffered : (late <|> offered) = (offered <|> late) := by
    cases offered with
    | none => cases late <;> rfl
    | some t =>
      cases late with
      | none => rfl
      | some u =>
        obtain rfl := htexts t rfl u rfl
        rfl
  rw [← hoffered]
  refine ⟨h.text, ?_, h.compiled⟩
  rw [h.rows]
  unfold known
  rw [List.map_append, List.map_append]
  apply mergeSort_append_comm Prod.fst
  intro a ha b hb
  obtain ⟨y, hy, rfl⟩ := List.mem_map.1 ha
  obtain ⟨x, hx, rfl⟩ := List.mem_map.1 hb
  exact (hties x hx y hy).symm

end Holds

/-- If no time is in both collectors and their texts do not differ, either can be merged into the
other. The answers are the same, and so are the rows that a question leaves. -/
theorem merge_either_way {a b : Collector} (ha : a.Reached) (hb : b.Reached)
    (hties : ∀ x ∈ a.rows, ∀ y ∈ b.rows, x.micros ≠ y.micros)
    (htexts : ∀ t ∈ a.text, ∀ u ∈ b.text, t = u) :
    (a.merge b).hasMatch.1 = (b.merge a).hasMatch.1 ∧
      (a.merge b).countMatches.1 = (b.merge a).countMatches.1 ∧
      (a.merge b).firstMatch.1 = (b.merge a).firstMatch.1 ∧
      ∀ function, ((a.merge b).asked function).registry.shown ((a.merge b).asked function).rows =
        ((b.merge a).asked function).registry.shown ((b.merge a).asked function).rows := by
  obtain ⟨offered, rows, hholds⟩ := ha.holds
  obtain ⟨late, more, hother⟩ := hb.holds
  have hab := hholds.merge hother
  have hba : (b.merge a).Holds (offered <|> late) (rows ++ more) := by
    apply (hother.merge hholds).swap
    · rw [← hholds.text, ← hother.text]
      exact htexts
    · intro x hx y hy
      obtain ⟨r, hr, hrx⟩ := hholds.exists_row hx
      obtain ⟨s, hs, hsy⟩ := hother.exists_row hy
      rw [← hrx, ← hsy]
      exact hties r hr s hs
  obtain ⟨hfound, hcount, hfirst⟩ := hab.answers_eq hba
  refine ⟨hfound, hcount, hfirst, fun function => ?_⟩
  rw [asked_eq, asked_eq, hab.shown_findMatches, hba.shown_findMatches]

/-- One part has been asked and got another row since. Times are tied within each part, and the two
parts number the names differently. -/
theorem merge_either_way_tied : ∃ a b : Collector,
    a.Reached ∧ b.Reached ∧ a.rows.length = 3 ∧ b.rows.length = 2 ∧
      (∀ x ∈ a.rows, ∀ y ∈ b.rows, x.micros ≠ y.micros) ∧ (∀ t ∈ a.text, ∀ u ∈ b.text, t = u) ∧
      (a.merge b).rows.map Row.micros = [0, 500000, 0, 700000, 700000] ∧
      (b.merge a).rows.map Row.micros = [700000, 700000, 0, 500000, 0] ∧
      (a.merge b).hasMatch.1.toOption = some true ∧ (a.merge b).countMatches.1.toOption = some 1 ∧
      (a.merge b).firstMatch.1.toOption = some [500000, 700000] ∧
      (∀ function, ((a.merge b).asked function).registry.shown ((a.merge b).asked function).rows =
        known [(0, "C"), (0, "A"), (500000, "A"), (700000, "B"), (700000, "C")]) ∧
      (a.merge b).hasMatch.1 = (b.merge a).hasMatch.1 ∧
      (a.merge b).countMatches.1 = (b.merge a).countMatches.1 ∧
      (a.merge b).firstMatch.1 = (b.merge a).firstMatch.1 ∧
      ∀ function, ((a.merge b).asked function).registry.shown ((a.merge b).asked function).rows =
        ((b.merge a).asked function).registry.shown ((b.merge a).asked function).rows := by
  let a₀ := ((Collector.empty.offerPattern "A -> B => Seq").record 500000 "A").record 0 "C"
  let a₁ : Collector := { a₀ with rows := [⟨0, ⟨1⟩⟩, ⟨500000, ⟨0⟩⟩] }
  let a := a₁.pattern.2.record 0 "A"
  let b := (Collector.empty.record 700000 "B").record 700000 "C"
  have hasked : a₀.asked .count = a₁.pattern.2 := by
    have hsort : a₀.sort = a₁ := sort_eq (by decide) (by decide +kernel)
    rw [asked_eq, findMatches, hsort]
  have ha : a.Reached := by
    show (a₁.pattern.2.record 0 "A").Reached
    rw [← hasked]
    exact .record _ _ (.asked _ (.record _ _ (.record _ _ (.offerPattern _ .empty))))
  have hb : b.Reached := .record _ _ (.record _ _ .empty)
  have hties : ∀ x ∈ a.rows, ∀ y ∈ b.rows, x.micros ≠ y.micros := by decide +kernel
  have htexts : ∀ t ∈ a.text, ∀ u ∈ b.text, t = u := by
    rintro t - u ⟨⟩
  have hsort : (a.merge b).sort = { a.merge b with
      rows := [⟨0, ⟨1⟩⟩, ⟨0, ⟨0⟩⟩, ⟨500000, ⟨0⟩⟩, ⟨700000, ⟨2⟩⟩, ⟨700000, ⟨1⟩⟩] } :=
    sort_eq (by decide) (by decide +kernel)
  have hanswers : (a.merge b).hasMatch.1.toOption = some true ∧
      (a.merge b).countMatches.1.toOption = some 1 ∧
      (a.merge b).firstMatch.1.toOption = some [500000, 700000] := by
    unfold hasMatch countMatches firstMatch findMatches
    rw [hsort]
    decide +kernel
  have hshown : (a.merge b).findMatches.2.registry.shown (a.merge b).findMatches.2.rows =
      known [(0, "C"), (0, "A"), (500000, "A"), (700000, "B"), (700000, "C")] := by
    unfold findMatches
    rw [hsort]
    decide +kernel
  obtain ⟨hfound, hcount, hfirst⟩ := hanswers
  refine ⟨a, b, ha, hb, by decide +kernel, rfl, hties, htexts, by decide +kernel,
    by decide +kernel, hfound, hcount, hfirst, fun function => ?_,
    merge_either_way ha hb hties htexts⟩
  rw [asked_eq, hshown]

end TimedPattern.Collector
