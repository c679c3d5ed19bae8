import TimedPattern.PatternSet
import TimedPattern.Proofs.Registries
import TimedPattern.Proofs.Stages

/-!
# Sets of patterns

The patterns of a set share one registry, and keep what a search has left in them. None of it shows.
-/

open List (Forall₂)

namespace TimedPattern

/-! ## Names of events -/

namespace Event

theorem names_ofNames (r : Registry) (names : List String) (times : List Float) :
    r.names <+: (ofNames r names times).2.names := by
  induction names generalizing r times with
  | nil => exact List.prefix_refl _
  | cons name names ih =>
    cases times with
    | nil => exact List.prefix_refl _
    | cons time times => exact (r.names_prefix_intern name).trans (ih _ times)

theorem ofNames_alike (r s : Registry) (names : List String) (times : List Float) :
    Forall₂ (Alike (ofNames r names times).2 (ofNames s names times).2)
      (ofNames r names times).1 (ofNames s names times).1 := by
  induction names generalizing r s times with
  | nil => exact .nil
  | cons name names ih =>
    cases times with
    | nil => exact .nil
    | cons time times =>
      refine .cons ⟨rfl, ?_⟩ (ih _ _ times)
      have hr := Registry.name?_of_prefix (names_ofNames _ names times) (r.name?_intern name)
      have hs := Registry.name?_of_prefix (names_ofNames _ names times) (s.name?_intern name)
      exact hr.trans hs.symm

end Event

/-! ## One text on its own -/

namespace Pattern

/-- What a text finds among named events when it is read into a registry of its own. -/
def alone (d : Defaults) (names : List String) (times : List Float) (text : String) :
    Except PatternError (List (List Nat)) :=
  let (p, registry) := parse d .empty text
  p.map (·.findMatches (Event.ofNames registry names times).1)

/-- Up to what its steps hold, the pattern is the one of the text. -/
def Stands (d : Defaults) (r : Registry) (p : Pattern) (text : String) : Prop :=
  ∃ q, (parse d .empty text).1 = .ok q ∧ p.reset.Alike r (parse d .empty text).2 q.reset

namespace Stands

variable {d : Defaults} {r s : Registry} {p : Pattern} {text : String}

theorem mono (h : p.Stands d r text) (hnames : r.names <+: s.names) : p.Stands d s text := by
  obtain ⟨q, hq, halike⟩ := h
  exact ⟨q, hq, halike.mono hnames (List.prefix_refl _)⟩

theorem leftBy (h : p.Stands d r text) (events : List Event) :
    (p.leftBy events).Stands d r text := by
  unfold Stands
  rw [p.reset_leftBy]
  exact h

end Stands

end Pattern

/-! ## Operations -/

namespace PatternSet

inductive Operation where
  | add (text : String)
  | addAll (texts : List String)
  | event (name : String) (time : Float)
  | evaluate (events : List Event)
  | evaluateNamed (names : List String) (times : List Float)

def perform (s : PatternSet) : Operation → PatternSet
  | .add text => (s.add text).2
  | .addAll texts => (s.addAll texts).2
  | .event name time => (s.event name time).2
  | .evaluate events => s.evaluated events
  | .evaluateNamed names times => (s.evaluateNamed names times).2

/-- The texts in front of the first fault. -/
def taken (s : PatternSet) : List String → List String
  | [] => []
  | text :: rest =>
    match s.add text with
    | (.error _, _) => []
    | (.ok _, s) => text :: s.taken rest

/-- The texts that an operation adds to the set. -/
def accepted (s : PatternSet) : Operation → List String
  | .add text => s.taken [text]
  | .addAll texts => s.taken texts
  | _ => []

theorem add_eq_addAll (s : PatternSet) (text : String) : (s.add text).2 = (s.addAll [text]).2 := by
  unfold addAll
  split <;> simp_all [addAll]

end PatternSet

open PatternSet (Operation)

/-- A set and the texts that it has taken since it was fresh. -/
structure Kept where
  set : PatternSet
  texts : List String

namespace Kept

def perform (k : Kept) (op : Operation) : Kept := ⟨k.set.perform op, k.texts ++ k.set.accepted op⟩

theorem perform_of_accepted_nil {k : Kept} {op : Operation} (h : k.set.accepted op = []) :
    k.perform op = ⟨k.set.perform op, k.texts⟩ := by
  unfold perform
  rw [h, List.append_nil]

/-- The set holds the pattern of each text, whatever numbers its registry gave out. -/
structure Holds (d : Defaults) (k : Kept) : Prop where
  defaults : k.set.defaults = d
  patterns : Forall₂ (Pattern.Stands d k.set.registry) k.set.patterns k.texts

namespace Holds

variable {d : Defaults} {k : Kept}

theorem fresh (d : Defaults) : Holds d ⟨{ defaults := d }, []⟩ := ⟨rfl, .nil⟩

theorem grow (h : k.Holds d) {registry : Registry}
    (hnames : k.set.registry.names <+: registry.names) :
    Holds d ⟨{ k.set with registry }, k.texts⟩ :=
  ⟨h.defaults, h.patterns.imp fun _ _ hstands => hstands.mono hnames⟩

theorem add (h : k.Holds d) (text : String) :
    (∃ e set, (Pattern.parse d .empty text).1 = .error e ∧ k.set.add text = (.error e, set) ∧
      set.patterns = k.set.patterns ∧ Holds d ⟨set, k.texts⟩) ∨
    ∃ p q set, (Pattern.parse d .empty text).1 = .ok q ∧
      k.set.add text = (.ok k.texts.length, set) ∧ set.patterns = k.set.patterns ++ [p] ∧
        Holds d ⟨set, k.texts ++ [text]⟩ := by
  obtain ⟨rfl, hpatterns⟩ := h
  have halike := Pattern.parse_alike k.set.defaults k.set.registry .empty text
  have hgrow := Holds.grow ⟨rfl, hpatterns⟩ (Pattern.names_parse k.set.defaults k.set.registry text)
  have hplace := hpatterns.length_eq
  unfold PatternSet.add
  generalize Pattern.parse k.set.defaults k.set.registry text = x at halike hgrow ⊢
  obtain ⟨result, registry⟩ := x
  cases halone : (Pattern.parse k.set.defaults .empty text).1 with
  | error e =>
    rw [halone] at halike
    cases halike
    exact .inl ⟨e, _, rfl, rfl, rfl, hgrow⟩
  | ok q =>
    rw [halone] at halike
    cases halike with
    | @ok p _ halike =>
      rw [← hplace]
      refine .inr ⟨p, q, _, rfl, rfl, rfl, rfl, ?_⟩
      exact List.rel_append hgrow.patterns (.cons ⟨q, halone, halike.reset⟩ .nil)

theorem addAll (h : k.Holds d) (texts : List String) :
    Holds d ⟨(k.set.addAll texts).2, k.texts ++ k.set.taken texts⟩ ∧
      ∃ added, added.length = (k.set.taken texts).length ∧
        (k.set.addAll texts).2.patterns = k.set.patterns ++ added := by
  induction texts generalizing k with
  | nil =>
    unfold PatternSet.addAll PatternSet.taken
    rw [List.append_nil]
    exact ⟨h, [], rfl, (List.append_nil _).symm⟩
  | cons text texts ih =>
    unfold PatternSet.addAll PatternSet.taken
    rcases h.add text with ⟨e, set, -, hadd, hpatterns, hset⟩ |
      ⟨p, -, set, -, hadd, hpatterns, hset⟩
    · rw [hadd]
      exact ⟨(List.append_nil k.texts).symm ▸ hset, [], rfl, by simpa using hpatterns⟩
    · obtain ⟨hholds, added, hlength, hadded⟩ := ih hset
      rw [hadd]
      dsimp only at hholds hadded hlength ⊢
      rw [List.append_cons]
      refine ⟨hholds, p :: added, congrArg (· + 1) hlength, ?_⟩
      rw [hadded, hpatterns, ← List.append_cons]

theorem evaluated (h : k.Holds d) (events : List Event) :
    Holds d ⟨k.set.evaluated events, k.texts⟩ := by
  refine ⟨h.defaults, ?_⟩
  unfold PatternSet.evaluated
  rw [List.forall₂_map_left_iff]
  exact h.patterns.imp fun _ _ hstands => hstands.leftBy events

theorem events (h : k.Holds d) (names : List String) (times : List Float) :
    Holds d ⟨(k.set.events names times).2, k.texts⟩ :=
  h.grow (Event.names_ofNames k.set.registry names times)

theorem perform (h : k.Holds d) (op : Operation) : (k.perform op).Holds d := by
  cases op with
  | add text =>
    have hadd := (h.addAll [text]).1
    rw [← k.set.add_eq_addAll] at hadd
    exact hadd
  | addAll texts => exact (h.addAll texts).1
  | event name time =>
    rw [perform_of_accepted_nil rfl]
    exact h.grow (k.set.registry.names_prefix_intern name)
  | evaluate events =>
    rw [perform_of_accepted_nil rfl]
    exact h.evaluated events
  | evaluateNamed names times =>
    rw [perform_of_accepted_nil rfl]
    exact (h.events names times).evaluated _

theorem reset_perform (h : k.Holds d) (op : Operation) :
    ∃ added : List Pattern, added.length = (k.set.accepted op).length ∧
      (k.set.perform op).patterns.map Pattern.reset =
        k.set.patterns.map Pattern.reset ++ added.map Pattern.reset := by
  have hleft (patterns : List Pattern) (events : List Event) :
      (patterns.map (·.leftBy events)).map Pattern.reset = patterns.map Pattern.reset := by
    rw [List.map_map]
    exact List.map_congr_left fun p _ => p.reset_leftBy events
  cases op with
  | add text =>
    obtain ⟨-, added, hlength, hadded⟩ := h.addAll [text]
    refine ⟨added, hlength, ?_⟩
    rw [← List.map_append, ← hadded, ← k.set.add_eq_addAll]
    rfl
  | addAll texts =>
    obtain ⟨-, added, hlength, hadded⟩ := h.addAll texts
    refine ⟨added, hlength, ?_⟩
    rw [← List.map_append, ← hadded]
    rfl
  | event name time => exact ⟨[], rfl, (List.append_nil _).symm⟩
  | evaluate events => exact ⟨[], rfl, (hleft _ events).trans (List.append_nil _).symm⟩
  | evaluateNamed names times => exact ⟨[], rfl, (hleft _ _).trans (List.append_nil _).symm⟩

theorem evaluateNamed_eq (h : k.Holds d) (names : List String) (times : List Float) :
    (k.set.evaluateNamed names times).1.map Except.ok =
      k.texts.map (Pattern.alone d names times) := by
  show ((k.set.patterns.map _).map Except.ok : List (Except PatternError (List (List Nat)))) = _
  rw [List.map_map, ← List.forall₂_eq_eq_eq, List.forall₂_map_left_iff, List.forall₂_map_right_iff]
  apply h.patterns.imp
  rintro p text ⟨q, hq, halike⟩
  have hfound := (halike.mono (Event.names_ofNames _ names times)
    (Event.names_ofNames _ names times)).findMatches (Event.ofNames_alike _ _ names times)
  rw [p.findMatches_reset, q.findMatches_reset] at hfound
  unfold Pattern.alone
  dsimp only
  rw [hq]
  exact congrArg Except.ok hfound

end Holds

end Kept

/-! ## Copies -/

inductive Command where
  /-- Performs an operation on the set at a place. -/
  | perform (place : Nat) (op : Operation)
  /-- Puts a copy of the set at a place behind all others. -/
  | clone (place : Nat)

def Command.apply (shelf : List Kept) : Command → List Kept
  | perform place op => shelf.modify place (·.perform op)
  | clone place => shelf ++ shelf[place]?.toList

/-- The sets that there are after some commands, if there is a fresh one at first. -/
def shelf (d : Defaults) (commands : List Command) : List Kept :=
  commands.foldl Command.apply [⟨{ defaults := d }, []⟩]

theorem Command.apply_holds {d : Defaults} {shelf : List Kept} (h : ∀ k ∈ shelf, k.Holds d)
    (c : Command) : ∀ k ∈ c.apply shelf, k.Holds d := by
  intro k hk
  cases c with
  | perform place op =>
    obtain ⟨i, hi⟩ := List.mem_iff_getElem?.1 hk
    unfold apply at hi
    rw [List.getElem?_modify] at hi
    obtain ⟨j, hj, rfl⟩ := Option.map_eq_some_iff.1 hi
    have hj := h j (List.mem_of_getElem? hj)
    split
    · exact hj.perform op
    · exact hj
  | clone place =>
    rcases List.mem_append.1 hk with hk | hk
    · exact h k hk
    · exact h k (List.mem_of_getElem? (Option.mem_toList.1 hk))

theorem shelf_holds (d : Defaults) (commands : List Command) :
    ∀ k ∈ shelf d commands, k.Holds d := by
  have hrun (start : List Kept) (h : ∀ k ∈ start, k.Holds d) :
      ∀ k ∈ commands.foldl Command.apply start, k.Holds d := by
    induction commands generalizing start with
    | nil => exact h
    | cons c commands ih => exact ih _ (c.apply_holds h)
  apply hrun
  intro k hk
  rw [List.mem_singleton.1 hk]
  exact .fresh d

/-- Whatever was done with a set and with the sets that it was copied from, it finds what each of
its texts finds on its own, and takes or refuses a text as if it were the first. An operation
appends the patterns of the texts that it adds, and changes no result of those that are there. -/
theorem shelf_alone (d : Defaults) (commands : List Command) :
    ∀ k ∈ shelf d commands,
      (∀ names times, (k.set.evaluateNamed names times).1.map Except.ok =
        k.texts.map (Pattern.alone d names times)) ∧
      (∀ text, (k.set.add text).1 =
        (Pattern.parse d .empty text).1.map fun _ => k.texts.length) ∧
      (∀ text e, (k.set.add text).1 = .error e → (k.set.add text).2.patterns = k.set.patterns) ∧
      ∀ op, ∃ added : List Pattern, added.length = (k.set.accepted op).length ∧
        (k.set.perform op).patterns.map Pattern.reset =
          k.set.patterns.map Pattern.reset ++ added.map Pattern.reset ∧
        ∀ events, (k.set.perform op).evaluate events =
          k.set.evaluate events ++ added.map (·.findMatches events) := by
  intro k hk
  have hholds := shelf_holds d commands k hk
  refine ⟨hholds.evaluateNamed_eq, fun text => ?_, fun text e hfault => ?_, fun op => ?_⟩
  · rcases hholds.add text with ⟨e, set, halone, hadd, -⟩ | ⟨p, q, set, halone, hadd, -⟩
    · rw [halone, hadd]
      rfl
    · rw [halone, hadd]
      rfl
  · rcases hholds.add text with ⟨_, set, -, hadd, hpatterns, -⟩ | ⟨p, q, set, -, hadd, -⟩
    · rw [hadd]
      exact hpatterns
    · rw [hadd] at hfault
      cases hfault
  · obtain ⟨added, hlength, hadded⟩ := hholds.reset_perform op
    refine ⟨added, hlength, hadded, fun events => ?_⟩
    have hresults := congrArg (List.map (·.findMatches events)) hadded
    unfold PatternSet.evaluate
    simpa [List.map_map, Function.comp_def, Pattern.findMatches_reset] using hresults

/-- The copy has a search behind it that ran out of events between two steps, and a text with a
fault that left a name behind. -/
theorem shelf_alone_copy :
    let commands : List Command := [.perform 0 (.add "A -> B => P"), .perform 0 (.add "C & => F"),
      .perform 0 (.evaluateNamed ["A"] [0]), .clone 0, .perform 1 (.add "B => Q"),
      .perform 0 (.event "D" 3)]
    ∃ k ∈ shelf {} commands, k.texts = ["A -> B => P", "B => Q"] ∧
      k.set.registry.names = ["A", "B", "C"] ∧
      (∃ p step other, k.set.patterns.head? = some p ∧ p.steps = [step, other] ∧ 0 ∈ step.indices) ∧
      (k.set.evaluateNamed ["D", "A", "B"] [0, 0.5, 1]).1 = [[[1, 2]], [[2]]] ∧
        (k.set.evaluateNamed ["D", "A", "B"] [0, 0.5, 1]).1.map Except.ok =
          k.texts.map (Pattern.alone {} ["D", "A", "B"] [0, 0.5, 1]) := by
  intro commands
  obtain ⟨k, hk, htexts, hnames, hleft, hfound⟩ : ∃ k ∈ shelf {} commands,
      k.texts = ["A -> B => P", "B => Q"] ∧ k.set.registry.names = ["A", "B", "C"] ∧
        (∃ p step other, k.set.patterns.head? = some p ∧ p.steps = [step, other] ∧
          0 ∈ step.indices) ∧
          (k.set.evaluateNamed ["D", "A", "B"] [0, 0.5, 1]).1 = [[[1, 2]], [[2]]] := by
    refine ⟨_, List.mem_of_getElem? (i := 1) rfl, rfl, rfl, ⟨_, _, _, rfl, rfl, ?_⟩, ?_⟩
    · decide +kernel
    · decide +kernel
  exact ⟨k, hk, htexts, hnames, hleft, hfound,
    (shelf_alone {} commands k hk).1 ["D", "A", "B"] [0, 0.5, 1]⟩

end TimedPattern
