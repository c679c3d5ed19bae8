import TimedPattern.Aggregate
import TimedPattern.Aggregate.Collector
import TimedPattern.Proofs.Registries
import TimedPattern.Proofs.StableSort

/-!
# Collectors of parts

The parts of a collector number names differently, sort their rows early, and read the pattern while
the registry still grows. None of it shows.
-/

open List (Forall₂)

namespace TimedPattern

/-! ## Named rows -/

namespace Registry

/-- The rows with the names behind their numbers. -/
def shown (r : Registry) (rows : List Row) : List (Int × Option String) :=
  rows.map fun row => (row.micros, r.name? row.behavior)

def Names (r : Registry) (rows : List Row) : Prop :=
  ∀ row ∈ rows, ∃ name, r.name? row.behavior = some name

variable {r s : Registry} {rows others : List Row}

theorem Names.shown_of_prefix (h : r.Names rows) (hnames : r.names <+: s.names) :
    s.shown rows = r.shown rows := by
  apply List.map_congr_left
  intro row hrow
  obtain ⟨name, hname⟩ := h row hrow
  rw [hname, name?_of_prefix hnames hname]

theorem shown_mergeSort (r : Registry) (rows : List Row) :
    r.shown (rows.mergeSort fun a b => a.micros ≤ b.micros) =
      (r.shown rows).mergeSort fun a b => a.1 ≤ b.1 := by
  unfold shown
  apply List.map_mergeSort
  intro a _ b _
  rfl

theorem events_alike (h : r.shown rows = s.shown others) :
    Forall₂ (Event.Alike r s) (rows.map Row.event) (others.map Row.event) := by
  unfold shown at h
  rw [← List.forall₂_eq_eq_eq, List.forall₂_map_left_iff, List.forall₂_map_right_iff] at h
  rw [List.forall₂_map_left_iff, List.forall₂_map_right_iff]
  apply h.imp
  intro row other hshown
  obtain ⟨hmicros, hname⟩ := Prod.mk.inj hshown
  exact ⟨congrArg secondsOfMicros hmicros, hname⟩

theorem micros_eq (h : r.shown rows = s.shown others) :
    rows.map Row.micros = others.map Row.micros := by
  have hfirst := congrArg (List.map Prod.fst) h
  unfold shown at hfirst
  rwa [List.map_map, List.map_map] at hfirst

end Registry

/-- Rows as they are given. -/
def known (rows : List (Int × String)) : List (Int × Option String) :=
  rows.map fun row => (row.1, some row.2)

namespace Collector

theorem shown_recorded (c : Collector) (micros : Int) (name : String) :
    c.registry.names <+: (c.registry.intern name).2.names ∧
      (c.registry.intern name).2.shown [⟨micros, (c.registry.intern name).1⟩] =
        known [(micros, name)] := by
  refine ⟨c.registry.names_prefix_intern name, ?_⟩
  unfold Registry.shown
  rw [List.map_singleton, c.registry.name?_intern name]
  rfl

theorem recordRows_eq (c : Collector) {registry : Registry} {added : List Row}
    (h : registry.Names added) :
    ∃ grown again, c.recordRows registry added =
        { c with registry := grown, rows := c.rows ++ again } ∧
      c.registry.names <+: grown.names ∧ grown.shown again = registry.shown added := by
  induction added generalizing c with
  | nil => exact ⟨c.registry, [], by simp [recordRows], List.prefix_refl _, rfl⟩
  | cons row added ih =>
    obtain ⟨name, hname⟩ := h row (List.mem_cons_self ..)
    obtain ⟨hnames, hshown⟩ := c.shown_recorded row.micros name
    obtain ⟨grown, again, hagain, hgrown, hrest⟩ :=
      ih (c.record row.micros name) fun row hrow => h row (List.mem_cons_of_mem _ hrow)
    refine ⟨grown, ⟨row.micros, (c.registry.intern name).1⟩ :: again, ?_, hnames.trans hgrown, ?_⟩
    · unfold recordRows
      rw [hname]
      dsimp only
      rw [hagain]
      simp [Collector.record]
    · have hkept := Registry.name?_of_prefix hgrown (c.registry.name?_intern name)
      unfold Registry.shown at hrest ⊢
      rw [List.map_cons, List.map_cons, hrest, hname, hkept]

/-- What a collector holds, whatever numbers its registry gave out: the text of the pattern, the
rows up to a stable sort, and a pattern only if it is the one of the text. -/
structure Holds (c : Collector) (offered : Option String) (rows : List (Int × String)) : Prop where
  text : c.text = offered
  rows : (c.registry.shown c.rows).mergeSort (fun a b => a.1 ≤ b.1) =
    (known rows).mergeSort fun a b => a.1 ≤ b.1
  compiled : ∀ p, c.compiled = some p → ∃ text, offered = some text ∧ p.Says c.registry text

namespace Holds

variable {c other : Collector} {offered late : Option String} {rows more : List (Int × String)}

theorem names (h : c.Holds offered rows) : c.registry.Names c.rows := by
  intro row hrow
  have hmem : (row.micros, c.registry.name? row.behavior) ∈
      (c.registry.shown c.rows).mergeSort fun a b => a.1 ≤ b.1 :=
    List.mem_mergeSort.2 (List.mem_map_of_mem hrow)
  rw [h.rows, List.mem_mergeSort] at hmem
  obtain ⟨known, -, hknown⟩ := List.mem_map.1 hmem
  exact ⟨known.2, (Prod.mk.inj hknown).2.symm⟩

theorem empty : Collector.empty.Holds none [] := ⟨rfl, rfl, by simp [Collector.empty]⟩

theorem grow (h : c.Holds offered rows) {registry : Registry}
    (hnames : c.registry.names <+: registry.names) :
    ({ c with registry } : Collector).Holds offered rows := by
  refine ⟨h.text, ?_, fun p hp => ?_⟩
  · rw [h.names.shown_of_prefix hnames]
    exact h.rows
  · obtain ⟨text, htext, hsays⟩ := h.compiled p hp
    exact ⟨text, htext, hsays.mono hnames⟩

theorem append (h : c.Holds offered rows) {added : List Row}
    (hadded : (c.registry.shown added).mergeSort (fun a b => a.1 ≤ b.1) =
      (known more).mergeSort fun a b => a.1 ≤ b.1) :
    ({ c with rows := c.rows ++ added } : Collector).Holds offered (rows ++ more) := by
  refine ⟨h.text, ?_, h.compiled⟩
  unfold Registry.shown known
  rw [List.map_append, List.map_append]
  exact mergeSort_append_congr Prod.fst h.rows hadded

/-! ## Collecting -/

theorem offerPattern (h : c.Holds offered rows) (text : String) :
    (c.offerPattern text).Holds (offered <|> some text) rows := by
  refine ⟨congrArg (· <|> some text) h.text, h.rows, fun p hp => ?_⟩
  obtain ⟨first, rfl, hsays⟩ := h.compiled p hp
  exact ⟨first, rfl, hsays⟩

theorem record (h : c.Holds offered rows) (micros : Int) (name : String) :
    (c.record micros name).Holds offered (rows ++ [(micros, name)]) := by
  obtain ⟨hnames, hshown⟩ := c.shown_recorded micros name
  exact (h.grow hnames).append (congrArg (List.mergeSort · _) hshown)

theorem recordAll (h : c.Holds offered rows) (hunread : c.compiled = none)
    (more : List (Int × String)) :
    (more.foldl (fun c row => c.record row.1 row.2) c).Holds offered (rows ++ more) ∧
      (more.foldl (fun c row => c.record row.1 row.2) c).compiled = none := by
  induction more generalizing c rows with
  | nil =>
    rw [List.append_nil]
    exact ⟨h, hunread⟩
  | cons row more ih =>
    rw [List.foldl_cons, List.append_cons]
    exact ih (h.record row.1 row.2) hunread

theorem merge (h : c.Holds offered rows) (hother : other.Holds late more) :
    (c.merge other).Holds (offered <|> late) (rows ++ more) := by
  obtain ⟨grown, again, hmerged, hnames, hshown⟩ := c.recordRows_eq hother.names
  have hrows : (c.recordRows other.registry other.rows).Holds offered (rows ++ more) := by
    rw [hmerged]
    apply (h.grow hnames).append
    rw [← hother.rows, ← hshown]
  have htext := h.text
  unfold Collector.merge
  dsimp only
  cases offered with
  | some text =>
    rw [htext]
    exact hrows
  | none =>
    rw [htext]
    exact ⟨hother.text, hrows.rows, by simp⟩

/-! ## Asking -/

theorem shown_sort (h : c.Holds offered rows) :
    c.registry.shown c.sort.rows = (known rows).mergeSort fun a b => a.1 ≤ b.1 :=
  (c.registry.shown_mergeSort c.rows).trans h.rows

theorem sort (h : c.Holds offered rows) : c.sort.Holds offered rows := by
  refine ⟨h.text, ?_, h.compiled⟩
  show (c.registry.shown c.sort.rows).mergeSort _ = _
  rw [h.shown_sort, mergeSort_eq_iff]
  exact filter_mergeSort Prod.fst (known rows)

theorem pattern_says (h : c.Holds offered rows) (s : Registry) :
    SameResult (Pattern.Alike c.pattern.2.registry (Pattern.parse {} s (offered.getD "")).2)
      c.pattern.1 (Pattern.parse {} s (offered.getD "")).1 := by
  have hcompiled := h.compiled
  unfold Collector.pattern
  rw [h.text]
  cases hp : c.compiled with
  | some p =>
    obtain ⟨text, rfl, hsays⟩ := hcompiled p hp
    exact hsays s
  | none =>
    have halike := Pattern.parse_alike {} c.registry s (offered.getD "")
    dsimp only
    generalize Pattern.parse {} c.registry (offered.getD "") = x at halike
    obtain ⟨x, registry⟩ := x
    cases x <;> exact halike

theorem pattern (h : c.Holds offered rows) : c.pattern.2.Holds offered rows := by
  have hsays := h.pattern_says
  have hgrow := h.grow (Pattern.names_parse {} c.registry (c.text.getD ""))
  unfold Collector.pattern at hsays ⊢
  cases hcompiled : c.compiled with
  | some p =>
    exact h
  | none =>
    rw [hcompiled] at hsays
    dsimp only at hsays ⊢
    generalize Pattern.parse {} c.registry (c.text.getD "") = x at hsays hgrow
    obtain ⟨x, registry⟩ := x
    cases x with
    | error e => exact ⟨hgrow.text, hgrow.rows, by simp⟩
    | ok p =>
      refine ⟨hgrow.text, hgrow.rows, ?_⟩
      rintro _ ⟨⟩
      cases offered with
      | some text => exact ⟨text, rfl, hsays⟩
      -- Without a text there is no pattern: the empty text names no result.
      | none => cases hsays .empty

theorem findMatches (h : c.Holds offered rows) : c.findMatches.2.Holds offered rows :=
  h.sort.pattern

end Holds

/-! ## Answers -/

theorem pattern_frame (c : Collector) :
    c.pattern.2.rows = c.rows ∧ c.registry.names <+: c.pattern.2.registry.names := by
  have hnames := Pattern.names_parse {} c.registry (c.text.getD "")
  unfold pattern
  split
  · exact ⟨rfl, List.prefix_refl _⟩
  · generalize Pattern.parse {} c.registry (c.text.getD "") = x at hnames
    obtain ⟨x, registry⟩ := x
    cases x <;> exact ⟨rfl, hnames⟩

theorem pattern_unread {c : Collector} (h : c.compiled = none) :
    c.pattern.1 = (Pattern.parse {} c.registry (c.text.getD "")).1 ∧
      c.pattern.2.registry = (Pattern.parse {} c.registry (c.text.getD "")).2 := by
  unfold pattern
  rw [h]
  dsimp only
  generalize Pattern.parse {} c.registry (c.text.getD "") = x
  obtain ⟨x, registry⟩ := x
  cases x <;> exact ⟨rfl, rfl⟩

namespace Holds

variable {c d : Collector} {offered : Option String} {rows : List (Int × String)}

theorem shown_findMatches (h : c.Holds offered rows) :
    c.findMatches.2.registry.shown c.findMatches.2.rows =
      (known rows).mergeSort fun a b => a.1 ≤ b.1 := by
  obtain ⟨hrows, hnames⟩ := c.sort.pattern_frame
  show c.sort.pattern.2.registry.shown c.sort.pattern.2.rows = _
  rw [hrows, h.sort.names.shown_of_prefix hnames]
  exact h.shown_sort

/-- Two collectors that hold the same find the same, if one of them has not read its pattern yet. -/
theorem findMatches_eq (h : c.Holds offered rows) (hd : d.Holds offered rows)
    (hunread : d.compiled = none) : c.findMatches.1 = d.findMatches.1 := by
  have hshown := h.shown_findMatches.trans hd.shown_findMatches.symm
  have hevents := Registry.events_alike hshown
  -- Both registries know the text, so the pattern of `d` is the measure for the one of `c`.
  have hsays := h.sort.pattern_says d.sort.registry
  obtain ⟨hpattern, hregistry⟩ := pattern_unread (c := d.sort) hunread
  rw [← hd.sort.text, ← hpattern, ← hregistry] at hsays
  exact hsays.map_eq fun halike => halike.findMatches hevents

theorem firstMatch_eq (h : c.Holds offered rows) (hd : d.Holds offered rows)
    (hunread : d.compiled = none) : c.firstMatch.1 = d.firstMatch.1 := by
  have hfound := h.findMatches_eq hd hunread
  have hmicros := Registry.micros_eq (h.shown_findMatches.trans hd.shown_findMatches.symm)
  have htime (i : Nat) : c.findMatches.2.rows[i]?.map Row.micros =
      d.findMatches.2.rows[i]?.map Row.micros := by
    rw [← List.getElem?_map, ← List.getElem?_map, hmicros]
  unfold firstMatch
  dsimp only
  simp only [hfound, htime]

end Holds

def asked (c : Collector) : Aggregate → Collector
  | .found => c.hasMatch.2
  | .count => c.countMatches.2
  | .events => c.firstMatch.2

theorem asked_eq (c : Collector) (function : Aggregate) : c.asked function = c.findMatches.2 := by
  cases function <;> rfl

end Collector

/-! ## Histories -/

/-- How a collector came about. The pattern text that is offered is always the same one. -/
inductive History where
  | fresh
  | record (h : History) (micros : Int) (name : String)
  | offer (h : History)
  | ask (h : History) (function : Aggregate)
  | merge (target source : History)

namespace History

def collector (text : String) : History → Collector
  | fresh => .empty
  | record h micros name => (h.collector text).record micros name
  | offer h => (h.collector text).offerPattern text
  | ask h function => (h.collector text).asked function
  | merge target source => (target.collector text).merge (source.collector text)

/-- All rows that were recorded, the parts one after the other. -/
def rows : History → List (Int × String)
  | fresh => []
  | record h micros name => h.rows ++ [(micros, name)]
  | offer h => h.rows
  | ask h _ => h.rows
  | merge target source => target.rows ++ source.rows

/-- The text, if any part was offered it. -/
def offered (text : String) : History → Option String
  | fresh => none
  | record h _ _ => h.offered text
  | offer _ => some text
  | ask h _ => h.offered text
  | merge target source => target.offered text <|> source.offered text

/-- One collector that takes the text, if any part was offered it, and all rows. -/
def single (text : String) (h : History) : Collector :=
  h.rows.foldl (fun c row => c.record row.1 row.2)
    ((h.offered text).elim .empty Collector.empty.offerPattern)

theorem offered_eq (text : String) (h : History) :
    h.offered text = none ∨ h.offered text = some text := by
  induction h with
  | fresh => exact .inl rfl
  | record h micros name ih => exact ih
  | offer h => exact .inr rfl
  | ask h function ih => exact ih
  | merge target source iht ihs =>
    unfold offered
    rcases iht with h | h <;> rw [h]
    · exact ihs
    · exact .inr rfl

theorem collector_holds (text : String) (h : History) :
    (h.collector text).Holds (h.offered text) h.rows := by
  induction h with
  | fresh => exact .empty
  | record h micros name ih => exact ih.record micros name
  | offer h ih =>
    have hoffer := ih.offerPattern text
    rcases h.offered_eq text with hnone | hsome
    · rwa [hnone] at hoffer
    · rwa [hsome] at hoffer
  | ask h function ih =>
    unfold collector
    rw [Collector.asked_eq]
    exact ih.findMatches
  | merge target source iht ihs => exact iht.merge ihs

theorem single_holds (text : String) (h : History) :
    (h.single text).Holds (h.offered text) h.rows ∧ (h.single text).compiled = none := by
  unfold single
  rcases h.offered_eq text with hoffered | hoffered <;> rw [hoffered]
  · exact Collector.Holds.empty.recordAll rfl h.rows
  · exact (Collector.Holds.empty.offerPattern text).recordAll rfl h.rows

/-- However rows are split over collectors, and whatever is asked in between, the three answers are
those of one collector with all rows, and the rows are left as the stable sort of all rows. -/
theorem answers (text : String) (h : History) :
    (h.collector text).hasMatch.1 = (h.single text).hasMatch.1 ∧
      (h.collector text).countMatches.1 = (h.single text).countMatches.1 ∧
      (h.collector text).firstMatch.1 = (h.single text).firstMatch.1 ∧
      ∀ function, ((h.collector text).asked function).registry.shown
          ((h.collector text).asked function).rows =
        (h.rows.mergeSort fun a b => a.1 ≤ b.1).map fun row => (row.1, some row.2) := by
  have hholds := h.collector_holds text
  obtain ⟨hsingle, hunread⟩ := h.single_holds text
  have hfound := hholds.findMatches_eq hsingle hunread
  refine ⟨?_, ?_, hholds.firstMatch_eq hsingle hunread, fun function => ?_⟩
  · unfold Collector.hasMatch
    dsimp only
    rw [hfound]
  · unfold Collector.countMatches
    dsimp only
    rw [hfound]
  · rw [Collector.asked_eq, hholds.shown_findMatches]
    symm
    apply List.map_mergeSort
    intro a _ b _
    rfl

end History

end TimedPattern
