import TimedPattern.Pattern.Search
import TimedPattern.Proofs.Ceilings

/-!
# Steps that find nothing

A step that finds nothing still takes up an event: the next one starts behind its anchor, which is
its start.
-/

namespace TimedPattern

/-! ## Letting an event pass -/

namespace Attempt

/-- Whether some events get as far as a window: one of them lies behind it, or the last one not
before it. -/
def reaches (a : Attempt) (window : Range) (events : List Event) : Bool :=
  events.any (fun event => a.phase event.time (some window) = .late) ||
    events.getLast?.any fun event => a.phase event.time (some window) ≠ .early

/-- How many events come before the first one that lies behind a window. -/
def waits (a : Attempt) (window : Range) (events : List Event) : Nat :=
  (events.takeWhile fun event => a.phase event.time (some window) ≠ .late).length

end Attempt

namespace Trial

/-- Goes on with some steps once one event has passed. Behind the last step, all events pass that do
not lie behind the window. -/
def pass (window : Range) (index : Nat) (a : Attempt) (events : List Event)
    (steps : List Expression) : Trial :=
  if a.reaches window events then
    match steps with
    | [] => ⟨[], .complete a.indices (index + a.waits window events)⟩
    | _ :: _ => run (index + 1) a (events.drop 1) steps
  else ⟨[], .failed (index + 1)⟩

/-- Runs steps, but lets one event pass in front of the step at some place. Nothing else about the
attempt changes there. -/
def runPausing (window : Range) : (place index : Nat) → Attempt → List Event → List Expression →
    Trial
  | 0, index, a, events, steps =>
    if events.isEmpty then ⟨[], .unfinished⟩ else pass window index a events steps
  | _ + 1, _, _, _, [] => ⟨[], .unfinished⟩
  | place + 1, index, a, events, step :: rest =>
    if events.isEmpty then ⟨[], .unfinished⟩
    else
      let s := step.scan index a events
      if s.isSatisfied then
        let next := s.resume false
        (runPausing window place next s.attempt (events.drop (next - index)) rest).after s
      else ⟨[s], .failed (s.resume false)⟩

end Trial

deriving instance DecidableEq for Verdict

/-! ## Searches by any trials -/

/-- The trials of a search in which `run` makes the trial from an index on. -/
def trialsBy (run : Nat → List Event → Trial) : (index skip : Nat) → List Event → List Trial
  | _, _, [] => []
  | index, skip + 1, _ :: rest => trialsBy run (index + 1) skip rest
  | index, 0, event :: rest =>
    let t := run index (event :: rest)
    match t.next? with
    | some next => t :: trialsBy run (index + 1) (next - (index + 1)) rest
    | none => [t]

/-- The matches of a search whose attempts let one event pass in front of the step at some place. -/
def Pattern.findMatchesPausing (p : Pattern) (window : Range) (place : Nat) (events : List Event) :
    List (List Nat) :=
  let run index events := Trial.runPausing window place index {} events p.reset.steps
  (trialsBy run 0 0 events).filterMap Trial.match?

theorem Pattern.trialsFrom_eq (p : Pattern) (index skip : Nat) (events : List Event) :
    p.trialsFrom index skip events =
      trialsBy (fun index events => Trial.run index {} events p.steps) index skip events := by
  fun_induction p.trialsFrom index skip events with
  | case1 => rfl
  | case2 index skip event rest ih => exact ih
  | case3 index event rest t next hnext ih =>
    unfold trialsBy
    dsimp only
    rw [show Trial.next? _ = some next from hnext]
    exact congrArg (t :: ·) ih
  | case4 index event rest t hnext =>
    unfold trialsBy
    dsimp only
    rw [show Trial.next? _ = none from hnext]

theorem matches_trialsBy {run other : Nat → List Event → Trial} {events rest : List Event}
    {index : Nat} (skip : Nat) (hrest : events.drop index = rest)
    (h : ∀ i < events.length, (run i (events.drop i)).verdict = (other i (events.drop i)).verdict) :
    (trialsBy run index skip rest).filterMap Trial.match? =
      (trialsBy other index skip rest).filterMap Trial.match? := by
  induction rest generalizing index skip with
  | nil => rfl
  | cons event rest ih =>
    have hnext := Event.drop_succ hrest
    cases skip with
    | succ skip => exact ih skip hnext
    | zero =>
      have hindex : index < events.length := by
        by_contra hover
        rw [List.drop_eq_nil_of_le (by omega)] at hrest
        simp at hrest
      have hverdict := h index hindex
      rw [hrest] at hverdict
      have hnext? : (run index (event :: rest)).next? = (other index (event :: rest)).next? := by
        unfold Trial.next?
        rw [hverdict]
      have hmatch? : (run index (event :: rest)).match? = (other index (event :: rest)).match? := by
        unfold Trial.match?
        rw [hverdict]
      unfold trialsBy
      dsimp only
      rw [← hnext?]
      split
      · rw [List.filterMap_cons, List.filterMap_cons, hmatch?, ih _ hnext]
      · rw [List.filterMap_cons, List.filterMap_cons, hmatch?]

/-! ## One step that finds nothing -/

/-- What a step that may stay empty answers to an event of another behavior. -/
def Phase.answer : Phase → Outcome
  | early => .beforeTime
  | inside => .technicallyComplete
  | late => .completed

namespace Link

variable {l : Link} {a : Attempt} {index start : Nat} {event : Event} {events : List Event}

theorem feed_idle (hcount : l.occurrences.containsCount 0 = true) (ha : a.baseline.isSome = true)
    (hevent : event.behavior ≠ l.behavior) :
    l.step.feed index event a = ⟨(a.phase event.time (some l.timing)).answer, l.step, a⟩ := by
  cases hphase : a.phase event.time (some l.timing) with
  | early => exact Expression.feed_early hphase
  | late =>
    have hsatisfied : l.step.isSatisfied = true := hcount
    rw [Expression.feed_late (show a.phase event.time l.step.tally.timing = _ from hphase)]
    unfold Expression.expire
    rw [if_pos hsatisfied]
    rfl
  | inside =>
    have hunset : ¬ a.baseline.isNone = true := by
      rw [Option.isNone_iff_eq_none]
      exact Option.isSome_iff_ne_none.1 ha
    unfold step holding Expression.feed
    dsimp only
    rw [hphase, if_neg hevent.symm]
    unfold Tally.settle Tally.record
    dsimp only
    rw [if_neg (by simp [hunset])]
    rcases @Tally.judge_counted ⟨some l.occurrences, some l.timing, ∅⟩ l.occurrences rfl .skipped
      with ⟨hfew, -⟩ | ⟨-, hjudge⟩
    · exact absurd (hcount.symm.trans hfew) (by simp)
    · rw [hjudge]
      rfl

/-- What a scan of some events comes to if the step finds nothing. -/
structure Idles (l : Link) (a : Attempt) (index : Nat) (events : List Event) (last : Outcome)
    (s : Scan) : Prop where
  progress : s.progress = none
  collected : s.collected = a
  isSatisfied : s.isSatisfied =
    (events.any (fun event => a.phase event.time (some l.timing) = .late) ||
      (events.getLast?.map fun event => decide (a.phase event.time (some l.timing) ≠ .early)).getD
        last.isAcceptable)
  resume : s.isSatisfied = true → s.resume true = index + a.waits l.timing events

theorem scanFrom_idle (hcount : l.occurrences.containsCount 0 = true)
    (ha : a.baseline.isSome = true) (hidle : ∀ event ∈ events, event.behavior ≠ l.behavior)
    (last : Outcome) :
    l.Idles a index events last (l.step.scanFrom start none last index a events) := by
  induction events generalizing index last with
  | nil =>
    refine ⟨rfl, ?_, ?_, ?_⟩
    · unfold Expression.scanFrom Scan.collected
      dsimp only
      split <;> rfl
    · simp [Expression.scanFrom, Scan.isSatisfied]
    · intro h
      unfold Scan.resume
      rw [h]
      rfl
  | cons event rest ih =>
    have hfed := @feed_idle l a index event hcount ha (hidle event (by simp))
    unfold Expression.scanFrom
    rw [hfed]
    dsimp only
    -- An event behind the window ends the scan, and any other one is passed over.
    by_cases hlate : a.phase event.time (some l.timing) = .late
    · rw [hlate]
      refine ⟨rfl, rfl, ?_, fun _ => ?_⟩
      · simp [hlate, Scan.isSatisfied, Phase.answer, Outcome.isFailure]
      · simp [hlate, Scan.isSatisfied, Phase.answer, Outcome.isFailure, Scan.resume, Attempt.waits]
    · have hanswer : ¬ (a.phase event.time (some l.timing)).answer.isFailure = true ∧
          (a.phase event.time (some l.timing)).answer ≠ .completed ∧
          ¬ (a.phase event.time (some l.timing)).answer.isStepped = true ∧
          (a.phase event.time (some l.timing)).answer.isAcceptable =
            decide (a.phase event.time (some l.timing) ≠ .early) := by
        cases hphase : a.phase event.time (some l.timing) <;>
          simp_all [Phase.answer, Outcome.isFailure, Outcome.isStepped, Outcome.isAcceptable]
      obtain ⟨hfailure, hcompleted, hstepped, hacceptable⟩ := hanswer
      rw [if_neg hfailure, if_neg hcompleted, if_neg hstepped]
      obtain ⟨hprogress, hcollected, hsatisfied, hresume⟩ := @ih (index + 1)
        (fun event h => hidle event (by simp [h])) (a.phase event.time (some l.timing)).answer
      refine ⟨hprogress, hcollected, ?_, fun h => ?_⟩
      · refine hsatisfied.trans ?_
        rw [hacceptable]
        cases hlast : rest.getLast? <;> simp [hlate, List.getLast?_cons, hlast]
      · refine (hresume h).trans ?_
        simp [Attempt.waits, hlate]
        omega

theorem scan_idle (hcount : l.occurrences.containsCount 0 = true)
    (ha : a.baseline.isSome = true) (hidle : ∀ event ∈ events, event.behavior ≠ l.behavior)
    (start : Nat) :
    let s := l.step.scan start a events
    s.isSatisfied = a.reaches l.timing events ∧ s.attempt = a ∧ s.resume false = start + 1 ∧
      (s.isSatisfied = true → s.resume true = start + a.waits l.timing events) := by
  intro s
  obtain ⟨hprogress, hcollected, hsatisfied, hresume⟩ :
      l.Idles a start events .invalid s := scanFrom_idle hcount ha hidle .invalid
  refine ⟨?_, ?_, ?_, hresume⟩
  · rw [hsatisfied]
    unfold Attempt.reaches
    cases events.getLast? <;> rfl
  · unfold Scan.attempt
    rw [hprogress]
    exact hcollected
  · have hstart : s.start = start := Expression.start_scanFrom ..
    simp [Scan.resume, Scan.anchor, hprogress, hstart]

end Link

/-! ## Runs -/

theorem Expression.scan_clock_runs {e : Expression} {start : Nat} {a : Attempt}
    {events : List Event} (hevents : events ≠ [])
    (h : (e.scan start a events).isSatisfied = true) :
    (e.scan start a events).attempt.baseline.isSome = true := by
  obtain ⟨first, rest, rfl⟩ := List.exists_cons_of_ne_nil hevents
  have hcollected : (e.scan start a (first :: rest)).collected.baseline.isSome = true := by
    obtain ⟨hbaseline, -⟩ := scanFrom_clock h
    rw [(Scan.collected_clock _).1, scan, hbaseline]
    cases a.baseline <;> rfl
  unfold Scan.attempt
  split
  · rw [if_pos h, Attempt.baseline_handOver]
    rfl
  · exact hcollected

theorem Trial.run_insertIdx {l : Link} (hcount : l.occurrences.containsCount 0 = true) {place : Nat}
    {steps : List Expression} (hplace : place ≤ steps.length) {index : Nat} {a : Attempt}
    {events : List Event} (ha : place = 0 → a.baseline.isSome = true)
    (hidle : ∀ event ∈ events, event.behavior ≠ l.behavior) :
    (run index a events (steps.insertIdx place l.step)).verdict =
      (runPausing l.timing place index a events steps).verdict := by
  induction place generalizing steps index a events with
  | zero =>
    -- The step finds nothing, so it only lets events pass.
    obtain ⟨hsatisfied, hattempt, hnext, hresume⟩ := Link.scan_idle hcount (ha rfl) hidle index
    rw [List.insertIdx_zero]
    unfold run runPausing pass
    split
    · rfl
    · dsimp only
      rw [← hsatisfied, hattempt, hnext]
      split
      · rename_i h
        cases steps with
        | nil => rw [hresume h]
        | cons step rest =>
          rw [Nat.add_sub_cancel_left]
          rfl
      · rfl
  | succ place ih =>
    cases steps with
    | nil => simp at hplace
    | cons step rest =>
      rw [List.insertIdx_succ_cons]
      unfold run runPausing
      split
      · rfl
      · rename_i hevents
        dsimp only
        split
        · rename_i hsatisfied
          have hle : place ≤ rest.length := by simpa using hplace
          -- Behind a step in front of it the clock runs.
          have hclock := Expression.scan_clock_runs (by simpa using hevents) hsatisfied
          have hrest := @ih rest hle ((step.scan index a events).resume false) _
            (events.drop ((step.scan index a events).resume false - index)) (fun _ => hclock)
            fun event h => hidle event (List.mem_of_mem_drop h)
          cases hsteps : rest.insertIdx place l.step with
          | nil =>
            have hlength := List.length_insertIdx_of_le_length hle l.step
            simp [hsteps] at hlength
          | cons next others =>
            rw [hsteps] at hrest
            exact hrest
        · rfl

/-! ## Searches -/

namespace Pattern

/-- A step that may stay empty, for a behavior that does not occur, acts as a pause: the pattern
with it in some place but the first finds what the pattern without it finds if one event passes
there. So it changes nothing if no attempt comes to anything else for that event. -/
theorem findMatches_insertIdx (p : Pattern) {place : Nat} (hfirst : 0 < place)
    (hplace : place ≤ p.steps.length) {l : Link} (hcount : l.occurrences.containsCount 0 = true)
    (events : List Event) (hidle : ∀ event ∈ events, event.behavior ≠ l.behavior) :
    let q : Pattern := { p with steps := p.steps.insertIdx place l.step }
    q.findMatches events = p.findMatchesPausing l.timing place events ∧
      ((∀ index < events.length,
          (Trial.runPausing l.timing place index {} (events.drop index) p.reset.steps).verdict =
            (Trial.run index {} (events.drop index) p.reset.steps).verdict) →
        q.findMatches events = p.findMatches events) := by
  intro q
  have hsteps : q.reset.steps = p.reset.steps.insertIdx place l.step :=
    List.map_insertIdx Expression.reset p.steps place l.step
  have hpausing : q.findMatches events = p.findMatchesPausing l.timing place events := by
    unfold findMatches trials
    rw [trialsFrom_eq, hsteps]
    refine matches_trialsBy 0 List.drop_zero fun index hindex => ?_
    refine Trial.run_insertIdx hcount ?_ (by omega) fun event h => ?_
    · simpa [reset] using hplace
    · exact hidle event (List.mem_of_mem_drop h)
  refine ⟨hpausing, fun h => ?_⟩
  rw [hpausing]
  unfold findMatches trials
  rw [trialsFrom_eq]
  exact matches_trialsBy 0 List.drop_zero h

/-- The event that passes matters to no step. -/
theorem findMatches_insertIdx_passed :
    ∃ (p q : Pattern) (l : Link) (events : List Event),
      (parse {} (parse {} .empty "A -> X[?] -> B => P").2 "A -> B => P").1 = .ok p ∧
        (parse {} .empty "A -> X[?] -> B => P").1 = .ok q ∧
        q = { p with steps := p.steps.insertIdx 1 l.step } ∧
        (∀ event ∈ events, event.behavior ≠ l.behavior) ∧
        q.findMatches events = p.findMatches events ∧ p.findMatches events = [[0, 2]] := by
  obtain ⟨p, q, l, events, hp, hq, hsteps, hplace, hcount, hidle, hpause, hmatches⟩ :
      ∃ (p q : Pattern) (l : Link) (events : List Event),
        (parse {} (parse {} .empty "A -> X[?] -> B => P").2 "A -> B => P").1 = .ok p ∧
          (parse {} .empty "A -> X[?] -> B => P").1 = .ok q ∧
          q = { p with steps := p.steps.insertIdx 1 l.step } ∧ 1 ≤ p.steps.length ∧
          l.occurrences.containsCount 0 = true ∧ (∀ event ∈ events, event.behavior ≠ l.behavior) ∧
          (∀ index < events.length,
            (Trial.runPausing l.timing 1 index {} (events.drop index) p.reset.steps).verdict =
              (Trial.run index {} (events.drop index) p.reset.steps).verdict) ∧
          p.findMatches events = [[0, 2]] := by
    exact ⟨_, _, ⟨⟨1⟩, "X", .unit, .unit⟩, [⟨⟨0⟩, 0⟩, ⟨⟨3⟩, 0.2⟩, ⟨⟨2⟩, 0.5⟩], rfl, rfl, rfl,
      by decide +kernel, by decide +kernel, by decide +kernel, by decide +kernel, by decide +kernel⟩
  refine ⟨p, q, l, events, hp, hq, hsteps, hidle, ?_, hmatches⟩
  rw [hsteps]
  exact (findMatches_insertIdx p (by decide) hplace hcount events hidle).2 hpause

/-- The event that passes is the one that the next step waits for. -/
theorem findMatches_insertIdx_lost :
    ∃ (p q : Pattern) (l : Link) (events : List Event),
      (parse {} (parse {} .empty "A -> X[?] -> B => P").2 "A -> B => P").1 = .ok p ∧
        (parse {} .empty "A -> X[?] -> B => P").1 = .ok q ∧
        q = { p with steps := p.steps.insertIdx 1 l.step } ∧
        (l.occurrences.minimum = 0 ∧ l.timing.minimum = 0) ∧
        (∀ event ∈ events, event.behavior ≠ l.behavior) ∧
        p.findMatches events = [[0, 1]] ∧ q.findMatches events = [] := by
  exact ⟨_, _, ⟨⟨1⟩, "X", .unit, .unit⟩, [⟨⟨0⟩, 0⟩, ⟨⟨2⟩, 0.5⟩], rfl, rfl, rfl, ⟨rfl, rfl⟩,
    by decide +kernel, by decide +kernel, by decide +kernel⟩

end Pattern

end TimedPattern
