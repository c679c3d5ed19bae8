import TimedPattern.Pattern.Search
import TimedPattern.Proofs.HandOver
import TimedPattern.Proofs.Satisfied

/-!
# Ceilings

A node that exceeds its count is canceled and forgets what it has matched. The attempt fails with it
if every node above is an `&` that counts nothing. Under `|` it may go on.
-/

namespace TimedPattern

/-! ## Nodes and what they report -/

inductive Side where
  | left
  | right

/-- What a node made of the event at some index. -/
structure Report where
  index : Nat
  outcome : Outcome
  deriving DecidableEq

/-- The outcomes of a node whose count is not judged, or was judged to be too high. -/
def unjudged : List Outcome := [.beforeTime, .canceled, .invalid]

/-- The indices of the events that matched after the last cancellation. -/
def sinceCanceled (reports : List Report) : IndexSet :=
  let recent := reports.reverse.takeWhile fun r => r.outcome ≠ .canceled
  .ofList ((recent.filter fun r => r.outcome.isStepped).map Report.index)

namespace Expression

/-- The node that is reached from the root by way of some sides. -/
def below? : List Side → Expression → Option Expression
  | [], e => some e
  | .left :: path, conditional _ left _ _ => left.below? path
  | .right :: path, conditional _ _ right _ => right.below? path
  | _ :: _, leaf .. => none

/-- What an event does to a node below while it is fed to the tree. It reaches the node only from
inside of all windows above. -/
def feedBelow (index : Nat) (event : Event) : List Side → Expression → Attempt → Option Fed
  | [], e, a => some (e.feed index event a)
  | .left :: path, conditional _ left _ t, a =>
    if a.phase event.time t.timing = .inside then left.feedBelow index event path a else none
  | .right :: path, conditional _ left right t, a =>
    if a.phase event.time t.timing = .inside then
      right.feedBelow index event path (left.feed index event a).attempt
    else none
  | _ :: _, leaf .., _ => none

/-- What a node below reports while events with their indices are fed to the tree one by one. -/
def reports (path : List Side) : Expression → Attempt → List (Event × Nat) → List Report
  | _, _, [] => []
  | e, a, (event, index) :: rest =>
    let f := e.feed index event a
    let own := (e.feedBelow index event path a).map fun g => ⟨index, g.outcome⟩
    own.toList ++ f.expression.reports path f.attempt rest

/-- Every node above is an `&` that counts nothing. -/
def Conjoined : List Side → Expression → Prop
  | [], _ => True
  | .left :: path, conditional op left _ t =>
    op = .and ∧ t.occurrences = none ∧ left.Conjoined path
  | .right :: path, conditional op _ right t =>
    op = .and ∧ t.occurrences = none ∧ right.Conjoined path
  | _ :: _, leaf .. => False

end Expression

/-! ## One more report -/

theorem sinceCanceled_append (reports : List Report) (r : Report) :
    sinceCanceled (reports ++ [r]) =
      if r.outcome = .canceled then ∅
      else if r.outcome.isStepped then (sinceCanceled reports).insert r.index
      else sinceCanceled reports := by
  unfold sinceCanceled
  rw [List.reverse_append, List.reverse_singleton, List.singleton_append, List.takeWhile_cons]
  by_cases hcanceled : r.outcome = .canceled
  · simp [hcanceled, IndexSet.ofList]
  · by_cases hstepped : r.outcome.isStepped = true
    · ext i
      simp [hcanceled, hstepped]
    · simp [hcanceled, hstepped]

/-! ## Counting -/

namespace Tally

theorem judge_counted {t : Tally} {range : Range} (ht : t.occurrences = some range) (o : Outcome) :
    (range.containsCount t.count = false ∧
        (t.judge o = (.canceled, t.forget) ∨
          t.judge o = (if o = .stepped then .stepped else .notEnoughOccurrences, t))) ∨
      (range.containsCount t.count = true ∧
        t.judge o = (if o = .stepped then .steppedAndTechnicallyComplete
          else .technicallyComplete, t)) := by
  rw [Bool.eq_false_iff, ne_eq, Range.containsCount_iff]
  unfold judge
  rw [ht]
  dsimp only
  by_cases hfew : Float.ofNat t.count < range.minimum
  · simp [hfew]
  · by_cases hmany : range.maximum < Float.ofNat t.count
    · simp [hfew, hmany]
    · simp [hfew, hmany]

theorem record_matched (t : Tally) (a : Attempt) (index : Nat) (time : Float) (o : Outcome) :
    (t.record a index time o).1.matched =
      if o = .stepped then t.matched.insert index else t.matched := by
  unfold record
  split
  · rfl
  · rfl
  · rename_i hstepped _
    exact (if_neg hstepped).symm

/-- What one event does to the matches of a node with a count, and when the node accepts it. -/
structure Counts (range : Range) (before : IndexSet) (index : Nat) (o : Outcome) (t : Tally) :
    Prop where
  occurrences : t.occurrences = some range
  matched : t.matched =
    if o = .canceled then ∅ else if o.isStepped then before.insert index else before
  acceptable : o.isAcceptable = true ↔ o ∉ unjudged ∧ range.containsCount t.count = true

theorem settle_counts {t : Tally} {range : Range} (ht : t.occurrences = some range) (a : Attempt)
    (index : Nat) (time : Float) (o : Outcome) :
    Counts range t.matched index (t.settle a index time o).1 (t.settle a index time o).2.1 := by
  have hoccurrences := (t.record_occurrences a index time o).trans ht
  have hmatched := t.record_matched a index time o
  unfold settle
  generalize t.record a index time o = r at hoccurrences hmatched ⊢
  dsimp only
  split
  · rename_i hinvalid
    rw [if_neg hinvalid.1] at hmatched
    exact ⟨hoccurrences, hmatched, by simp [Outcome.isAcceptable, unjudged]⟩
  · rcases judge_counted hoccurrences o with ⟨hcount, h | h⟩ | ⟨hcount, h⟩ <;> rw [h]
    · exact ⟨hoccurrences, rfl, by simp [Outcome.isAcceptable, unjudged]⟩
    · by_cases ho : o = .stepped
      · simp only [ho, if_true] at hmatched ⊢
        exact ⟨hoccurrences, hmatched, by simp [Outcome.isAcceptable, hcount]⟩
      · simp only [ho, if_false] at hmatched ⊢
        exact ⟨hoccurrences, hmatched, by simp [Outcome.isAcceptable, hcount]⟩
    · by_cases ho : o = .stepped
      · simp only [ho, if_true] at hmatched ⊢
        exact ⟨hoccurrences, hmatched, by simp [Outcome.isAcceptable, unjudged, hcount]⟩
      · simp only [ho, if_false] at hmatched ⊢
        exact ⟨hoccurrences, hmatched, by simp [Outcome.isAcceptable, unjudged, hcount]⟩

end Tally

namespace Expression

theorem expire_counts {e : Expression} {range : Range} (he : e.tally.occurrences = some range)
    (a : Attempt) (index : Nat) :
    (e.expire a).expression.tally.Counts range e.tally.matched index (e.expire a).outcome := by
  have hsatisfied := isSatisfied_of_limited he
  unfold expire
  split
  · rename_i h
    have hcount : range.containsCount e.tally.count = true := hsatisfied.symm.trans h
    exact ⟨he, rfl, by simp [Outcome.isAcceptable, unjudged, hcount]⟩
  · rw [tally_mapTally]
    exact ⟨he, rfl, by simp [Outcome.isAcceptable, unjudged]⟩

theorem feed_counts {e : Expression} {range : Range} (he : e.tally.occurrences = some range)
    (a : Attempt) (index : Nat) (event : Event) :
    (e.feed index event a).expression.tally.Counts range e.tally.matched index
      (e.feed index event a).outcome := by
  cases hphase : a.phase event.time e.tally.timing with
  | early =>
    rw [feed_early hphase]
    exact ⟨he, rfl, by simp [Outcome.isAcceptable, unjudged]⟩
  | late =>
    rw [feed_late hphase]
    exact expire_counts he a index
  | inside =>
    cases e with
    | leaf behavior name t =>
      unfold feed
      rw [show a.phase event.time t.timing = _ from hphase]
      exact Tally.settle_counts he a index event.time _
    | conditional op left right t =>
      unfold feed
      rw [show a.phase event.time t.timing = _ from hphase]
      exact Tally.settle_counts he _ index event.time _

/-! ## Nodes below -/

variable {index : Nat} {event : Event} {path : List Side} {e node : Expression} {a : Attempt}

theorem below?_mapTally {side : Side} (f : Tally → Tally) :
    (e.mapTally f).below? (side :: path) = e.below? (side :: path) := by
  cases e <;> cases side <;> rfl

theorem below?_expire {side : Side} :
    (e.expire a).expression.below? (side :: path) = e.below? (side :: path) := by
  unfold expire
  split
  · rfl
  · exact below?_mapTally Tally.forget

theorem feedBelow_outside {side : Side} (h : a.phase event.time e.tally.timing ≠ .inside) :
    e.feedBelow index event (side :: path) a = none := by
  cases e with
  | leaf behavior name t => cases side <;> rfl
  | conditional op left right t => cases side <;> exact if_neg h

theorem below?_feed (path : List Side) (e : Expression) (a : Attempt) (index : Nat)
    (event : Event) :
    (e.feed index event a).expression.below? path =
      ((e.feedBelow index event path a).map Fed.expression <|> e.below? path) := by
  induction path generalizing e a with
  | nil => rfl
  | cons side path ih =>
    cases hphase : a.phase event.time e.tally.timing with
    | early =>
      rw [feed_early hphase, feedBelow_outside (by simp [hphase])]
      rfl
    | late =>
      rw [feed_late hphase, below?_expire, feedBelow_outside (by simp [hphase])]
      rfl
    | inside =>
      cases e with
      | leaf behavior name t =>
        unfold feed
        rw [show a.phase event.time t.timing = _ from hphase]
        cases side <;> rfl
      | conditional op left right t =>
        have hphase : a.phase event.time t.timing = .inside := hphase
        unfold feed feedBelow
        cases side with
        | left =>
          simp only [hphase, if_true]
          exact ih left a
        | right =>
          simp only [hphase, if_true]
          exact ih right (left.feed index event a).attempt

theorem exists_feed_of_feedBelow {f : Fed} (hnode : e.below? path = some node)
    (h : e.feedBelow index event path a = some f) : ∃ b, f = node.feed index event b := by
  induction path generalizing e a with
  | nil =>
    obtain rfl := Option.some.inj hnode
    exact ⟨a, (Option.some.inj h).symm⟩
  | cons side path ih =>
    cases e with
    | leaf behavior name t => cases side <;> simp [below?] at hnode
    | conditional op left right t =>
      cases side with
      | left => exact ih hnode (Option.ite_none_right_eq_some.1 h).2
      | right => exact ih hnode (Option.ite_none_right_eq_some.1 h).2

/-! ## Cancellations that reach the root -/

theorem conjoined_reset (path : List Side) (e : Expression) :
    e.reset.Conjoined path ↔ e.Conjoined path := by
  induction path generalizing e with
  | nil => exact Iff.rfl
  | cons side path ih =>
    cases e with
    | leaf behavior name t => cases side <;> exact Iff.rfl
    | conditional op left right t =>
      cases side with
      | left => simp only [reset, Conjoined, Tally.forget, ih]
      | right => simp only [reset, Conjoined, Tally.forget, ih]

theorem feed_and_failure {left right : Expression} {t : Tally} (ht : t.occurrences = none)
    (hphase : a.phase event.time t.timing = .inside)
    (h : (left.feed index event a).outcome.isFailure = true ∨
      (right.feed index event (left.feed index event a).attempt).outcome.isFailure = true) :
    ((conditional .and left right t).feed index event a).outcome.isFailure = true := by
  unfold feed
  rw [hphase]
  dsimp only
  generalize left.feed index event a = l at h ⊢
  generalize right.feed index event l.attempt = r at h ⊢
  have hjoin : (Operator.and.join l.outcome r.outcome).isFailure = true := by
    rw [Outcome.isFailure_iff, Outcome.isFailure_iff] at h
    rw [Outcome.isFailure_iff]
    show 7 ≤ (l.outcome.worse r.outcome).rank
    rw [Outcome.rank_worse]
    omega
  rcases Tally.settle_uncounted ht r.attempt index event.time
    (Operator.and.join l.outcome r.outcome) with hsettle | ⟨-, hsettle⟩
  · rw [hsettle]
    exact hjoin
  · rw [hsettle]
    rfl

theorem feed_failure {f : Fed} (h : e.Conjoined path)
    (hfed : e.feedBelow index event path a = some f) (hf : f.outcome.isFailure = true) :
    (e.feed index event a).outcome.isFailure = true := by
  induction path generalizing e a with
  | nil =>
    obtain rfl := Option.some.inj hfed
    exact hf
  | cons side path ih =>
    cases e with
    | leaf behavior name t => cases side <;> exact h.elim
    | conditional op left right t =>
      cases side with
      | left =>
        obtain ⟨rfl, ht, hconjoined⟩ := h
        obtain ⟨hphase, hfed⟩ := Option.ite_none_right_eq_some.1 hfed
        exact feed_and_failure ht hphase (.inl (ih hconjoined hfed))
      | right =>
        obtain ⟨rfl, ht, hconjoined⟩ := h
        obtain ⟨hphase, hfed⟩ := Option.ite_none_right_eq_some.1 hfed
        exact feed_and_failure ht hphase (.inr (ih hconjoined hfed))

/-! ## Whole attempts -/

theorem exists_below?_reset (hnode : e.below? path = some node) :
    e.reset.below? path = some node.reset := by
  induction path generalizing e with
  | nil => exact congrArg (some ·.reset) (Option.some.inj hnode)
  | cons side path ih =>
    cases e with
    | leaf behavior name t => cases side <;> simp [below?] at hnode
    | conditional op left right t => cases side <;> exact ih hnode

theorem reports_counted {range : Range} (earlier : List Report) {before after : List Report}
    {r : Report} {events : List (Event × Nat)} (hnode : e.below? path = some node)
    (hrange : node.tally.occurrences = some range)
    (hmatched : node.tally.matched = sinceCanceled earlier)
    (h : e.reports path a events = before ++ r :: after) :
    r.outcome.isAcceptable = true ↔ r.outcome ∉ unjudged ∧
      range.containsCount (sinceCanceled (earlier ++ before ++ [r])).size = true := by
  induction events generalizing e node a earlier before with
  | nil => simp [reports] at h
  | cons fed rest ih =>
    obtain ⟨event, index⟩ := fed
    have hbelow := e.below?_feed path a index event
    unfold reports at h
    dsimp only at h
    cases hfed : e.feedBelow index event path a with
    | none =>
      rw [hfed] at h hbelow
      exact ih earlier (hbelow.trans hnode) hrange hmatched h
    | some f =>
      rw [hfed] at h hbelow
      obtain ⟨b, rfl⟩ := exists_feed_of_feedBelow hnode hfed
      -- The node holds its matches since the last cancellation, the one of this event included.
      obtain ⟨hoccurrences, hmatched', hacceptable⟩ := node.feed_counts hrange b index event
      rw [hmatched, ← sinceCanceled_append earlier ⟨index, _⟩] at hmatched'
      cases before with
      | nil =>
        obtain ⟨rfl, -⟩ := List.cons.inj h
        rw [List.append_nil, ← hmatched']
        exact hacceptable
      | cons own before =>
        obtain ⟨rfl, hrest⟩ := List.cons.inj h
        rw [List.append_cons earlier]
        exact ih _ hbelow hoccurrences hmatched' hrest

theorem first_or_later {own : Option Report} {later before after : List Report} {r : Report}
    (h : own.toList ++ later = before ++ r :: after) :
    (own = some r ∧ after = later) ∨ ∃ earlier, later = earlier ++ r :: after := by
  cases own with
  | none => exact .inr ⟨before, h⟩
  | some o =>
    cases before with
    | nil =>
      obtain ⟨rfl, rfl⟩ := List.cons.inj h
      exact .inl ⟨rfl, rfl⟩
    | cons _ before => exact .inr ⟨before, (List.cons.inj h).2⟩

theorem scanFrom_canceled {start : Nat} {progress : Option Progress} {last : Outcome}
    {rest : List Event} {before after : List Report} {i : Nat} (h : e.Conjoined path)
    (hreports : e.reports path a ((rest.zipIdx index).take
      (e.scanFrom start progress last index a rest).outcomes.length) =
        before ++ ⟨i, .canceled⟩ :: after) :
    after = [] ∧ (e.scanFrom start progress last index a rest).isSatisfied = false := by
  induction rest generalizing progress last index e a before with
  | nil => simp [reports] at hreports
  | cons event rest ih =>
    have hconjoined : (e.feed index event a).expression.Conjoined path := by
      rw [← conjoined_reset, (e.feed_frame a index event).limits, conjoined_reset]
      exact h
    have hcanceled (hown : (e.feedBelow index event path a).map (fun g => ⟨index, g.outcome⟩) =
        some (Report.mk i .canceled)) : (e.feed index event a).outcome.isFailure = true := by
      obtain ⟨f, hfed, hf⟩ := Option.map_eq_some_iff.1 hown
      exact feed_failure h hfed (by rw [(Report.mk.inj hf).2]; rfl)
    rw [scanFrom] at hreports ⊢
    dsimp only at hreports ⊢
    split at hreports
    · rename_i hfailure
      rw [if_pos hfailure]
      -- The root has failed, so the scan feeds nothing more.
      rcases first_or_later hreports with ⟨-, hlast⟩ | ⟨earlier, hlater⟩
      · exact ⟨hlast, rfl⟩
      · simp [reports] at hlater
    · rename_i hfailure
      rw [if_neg hfailure]
      split at hreports
      · rcases first_or_later hreports with ⟨hown, -⟩ | ⟨earlier, hlater⟩
        · exact absurd (hcanceled hown) hfailure
        · simp [reports] at hlater
      · rename_i hcompleted
        rw [if_neg hcompleted]
        rcases first_or_later hreports with ⟨hown, -⟩ | ⟨earlier, hlater⟩
        · exact absurd (hcanceled hown) hfailure
        · exact ih hconjoined hlater

/-- A node with a count accepts an event exactly if the matches since it was canceled for the last
time are in range. If every node above is an `&` that counts nothing, a cancellation is the last
that the node says in a scan, which it fails. -/
theorem reports_ceiling (e : Expression) (path : List Side) (a : Attempt) {node : Expression}
    {range : Range} (hnode : e.below? path = some node)
    (hrange : node.tally.occurrences = some range) :
    (∀ events before r after, e.reset.reports path a events = before ++ r :: after →
      (r.outcome.isAcceptable = true ↔ r.outcome ∉ unjudged ∧
        range.containsCount (sinceCanceled (before ++ [r])).size = true)) ∧
      (e.Conjoined path → ∀ start events before i after,
        let s := e.reset.scan start a events
        e.reset.reports path a ((events.zipIdx start).take s.outcomes.length) =
          before ++ ⟨i, .canceled⟩ :: after → after = [] ∧ s.isSatisfied = false) := by
  constructor
  · intro events before r after h
    have hbelow := exists_below?_reset hnode
    refine reports_counted [] hbelow ?_ ?_ h
    · rw [tally_reset]
      exact hrange
    · rw [tally_reset]
      rfl
  · intro hconjoined start events before i after s h
    exact scanFrom_canceled ((conjoined_reset path e).2 hconjoined) h

/-- The third event exceeds the count of the left side, and is the last one that the scan feeds. -/
theorem reports_ceiling_conjoined :
    ∃ (p : Pattern) (step node : Expression) (range : Range) (events : List Event),
      (Pattern.parse {} .empty "A[2]\x7bs 5\x7d & B[*] => P").1 = .ok p ∧ p.steps = [step] ∧
        step.below? [.left] = some node ∧ node.tally.occurrences = some range ∧
          step.reset.reports [.left] {} (events.zipIdx.take 3) =
            [⟨0, .stepped⟩, ⟨1, .steppedAndTechnicallyComplete⟩, ⟨2, .canceled⟩] ∧
          range.containsCount
            (sinceCanceled [⟨0, .stepped⟩, ⟨1, .steppedAndTechnicallyComplete⟩]).size = true ∧
          (step.reset.scan 0 {} events).isSatisfied = false := by
  obtain ⟨p, step, node, range, events, hp, hstep, hnode, hrange, hconjoined, hlength, hreports⟩ :
      ∃ (p : Pattern) (step node : Expression) (range : Range) (events : List Event),
        (Pattern.parse {} .empty "A[2]\x7bs 5\x7d & B[*] => P").1 = .ok p ∧ p.steps = [step] ∧
          step.below? [.left] = some node ∧ node.tally.occurrences = some range ∧
            step.Conjoined [.left] ∧ (step.reset.scan 0 {} events).outcomes.length = 3 ∧
              step.reset.reports [.left] {} (events.zipIdx.take 3) =
                [⟨0, .stepped⟩, ⟨1, .steppedAndTechnicallyComplete⟩, ⟨2, .canceled⟩] := by
    exact ⟨_, _, _, _, [⟨⟨0⟩, 0⟩, ⟨⟨0⟩, 1⟩, ⟨⟨0⟩, 2⟩, ⟨⟨1⟩, 2.5⟩], rfl, rfl, rfl, rfl,
      ⟨rfl, rfl, trivial⟩, rfl, rfl⟩
  obtain ⟨hcounted, hfails⟩ := reports_ceiling step [.left] {} hnode hrange
  refine ⟨p, step, node, range, events, hp, hstep, hnode, hrange, hreports, ?_, ?_⟩
  · exact ((hcounted _ [⟨0, .stepped⟩] _ _ hreports).1 rfl).2
  · rw [← hlength] at hreports
    exact (hfails hconjoined 0 events [_, _] 2 [] hreports).2

/-- The left side forbids its behavior. It is canceled for the first event and accepts the second
one all the same, because `|` has gone on with the right side in between. -/
theorem reports_after_canceled :
    ∃ (p : Pattern) (step : Expression) (events : List Event),
      (Pattern.parse {} .empty "A -> X[!] | B => P").1 = .ok p ∧ step ∈ p.steps ∧
        step.reset.reports [.left] ⟨some 0, some 1, .ofList [0]⟩ ((events.zipIdx 1).take 2) =
          [⟨1, .canceled⟩, ⟨2, .technicallyComplete⟩] ∧
        (step.reset.scan 1 ⟨some 0, some 1, .ofList [0]⟩ events).outcomes.length = 2 ∧
        p.findMatches (⟨⟨0⟩, 0⟩ :: events) = [[0]] := by
  refine ⟨_, _, [⟨⟨1⟩, 0.1⟩, ⟨⟨3⟩, 0.2⟩], rfl, .tail _ (.head _), rfl, rfl, ?_⟩
  decide +kernel

end Expression

end TimedPattern
