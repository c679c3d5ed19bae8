import TimedPattern.Proofs.Clock
import TimedPattern.Proofs.StepOrder

/-!
# Handing the clock over

The clock moves on with the last event that advanced the root. Under `&` the root can be satisfied
without ever having advanced, and then the clock stays.
-/

namespace TimedPattern

/-! ## Events that matter -/

/-- The indices of the outcomes that advance a step, if the first outcome is that of `index`. -/
def advancesFrom (index : Nat) : List Outcome → List Nat
  | [] => []
  | o :: rest =>
    if o.isStepped then index :: advancesFrom (index + 1) rest else advancesFrom (index + 1) rest

namespace Expression

/-- The indices that the tree holds right after their event was fed, as far as a scan feeds them. -/
def takenFrom (index : Nat) (e : Expression) (a : Attempt) : List Event → List Nat
  | [] => []
  | event :: rest =>
    let f := e.feed index event a
    let later :=
      if f.outcome.isFailure ∨ f.outcome = .completed then []
      else takenFrom (index + 1) f.expression f.attempt rest
    if index ∈ f.expression.indices then index :: later else later

end Expression

/-- The clock that a scan of a tree leaves if the events at some indices moved it on. The first
event that is scanned sets a clock that is not set. After the last of the indices, it shows the time
of that event, and the window of the tree ends in the deadline. -/
def Scan.MovesOn (s : Scan) (e : Expression) (a : Attempt) (events : List Event)
    (indices : List Nat) : Prop :=
  ∃ first, events[s.start]? = some first ∧
    let baseline := a.baseline.getD first.time
    match indices.getLast? with
    | none => s.attempt.baseline = some baseline ∧ s.attempt.deadline = a.deadline
    | some last => ∃ event, events[last]? = some event ∧
        s.attempt.baseline = some event.time ∧
          s.attempt.deadline = (e.ceiling.map (baseline + ·) <|> a.deadline)

/-! ## What advances a root is taken in -/

theorem Operator.join_eq_or (op : Operator) (o p : Outcome) :
    op.join o p = o ∨ op.join o p = p := by
  cases op with
  | and => exact ite_eq_or_eq .. |>.symm
  | or => exact ite_eq_or_eq .. |>.symm

namespace Tally

theorem judge_isStepped {t : Tally} {o : Outcome} (h : (t.judge o).1.isStepped = true) :
    o.isStepped = true ∧ (t.judge o).2 = t := by
  unfold judge at h ⊢
  split at h
  · exact ⟨h, rfl⟩
  · split at h
    · rename_i hfew
      rw [if_pos hfew]
      split at h
      · rename_i ho
        exact ⟨by rw [ho]; rfl, rfl⟩
      · simp [Outcome.isStepped] at h
    · rename_i hfew
      rw [if_neg hfew]
      split at h
      · simp [Outcome.isStepped] at h
      · rename_i hmany
        rw [if_neg hmany]
        split at h
        · rename_i ho
          exact ⟨by rw [ho]; rfl, rfl⟩
        · simp [Outcome.isStepped] at h

theorem settle_isStepped {t : Tally} {a : Attempt} {index : Nat} {time : Float} {o : Outcome}
    (h : (t.settle a index time o).1.isStepped = true) :
    o.isStepped = true ∧ (t.settle a index time o).2.1 = (t.record a index time o).1 := by
  unfold settle at h ⊢
  generalize t.record a index time o = r at h ⊢
  dsimp only at h ⊢
  split at h
  · simp [Outcome.isStepped] at h
  · rename_i hvalid
    rw [if_neg hvalid]
    exact judge_isStepped h

end Tally

namespace Expression

theorem expire_not_isStepped (e : Expression) (a : Attempt) :
    (e.expire a).outcome.isStepped = false := by
  unfold expire
  split <;> rfl

theorem mem_of_isStepped {e : Expression} {a : Attempt} {index : Nat} {event : Event}
    (h : (e.feed index event a).outcome.isStepped = true) :
    index ∈ (e.feed index event a).expression.indices := by
  induction e generalizing a with
  | leaf behavior name t =>
    unfold feed at h ⊢
    split at h
    · simp [Outcome.isStepped] at h
    · simp [expire_not_isStepped] at h
    · obtain ⟨ho, htally⟩ := Tally.settle_isStepped h
      split at ho
      · rename_i hbehavior
        dsimp only [indices]
        rw [if_pos hbehavior] at htally ⊢
        rw [htally]
        exact IndexSet.mem_insert.2 (.inl rfl)
      · simp [Outcome.isStepped] at ho
  | conditional op left right t ihl ihr =>
    unfold feed at h ⊢
    split at h
    · simp [Outcome.isStepped] at h
    · simp [expire_not_isStepped] at h
    · obtain ⟨ho, -⟩ := Tally.settle_isStepped h
      dsimp only
      rw [mem_indices_conditional]
      right
      rcases op.join_eq_or (left.feed index event a).outcome
        (right.feed index event (left.feed index event a).attempt).outcome with hl | hr
      · rw [hl] at ho
        exact .inl (ihl ho)
      · rw [hr] at ho
        exact .inr (ihr ho)

/-! ## The course of a scan -/

variable {e : Expression} {a : Attempt} {events rest : List Event} {event : Event}
variable {start index : Nat} {progress : Option Progress} {last : Outcome}

theorem scanFrom_cons
    (h : (e.scanFrom start progress last index a (event :: rest)).isSatisfied = true) :
    let f := e.feed index event a
    (f.outcome = .completed ∧ e.scanFrom start progress last index a (event :: rest) =
        ⟨start, [.completed], progress, .completed index, f.expression, f.attempt⟩) ∨
      (f.outcome ≠ .completed ∧ e.scanFrom start progress last index a (event :: rest) =
        (f.expression.scanFrom start (if f.outcome.isStepped then some ⟨index, event.time⟩
          else progress) f.outcome (index + 1) f.attempt rest).after f.outcome) := by
  have hfailure := not_isFailure_of_isSatisfied h
  dsimp only
  by_cases ho : (e.feed index event a).outcome = .completed
  · refine .inl ⟨ho, ?_⟩
    rw [scanFrom, if_neg hfailure, if_pos ho, ho]
  · refine .inr ⟨ho, ?_⟩
    rw [scanFrom, if_neg hfailure, if_neg ho]

theorem scanFrom_progress (hrest : events.drop index = rest)
    (h : (e.scanFrom start progress last index a rest).isSatisfied = true) :
    let s := e.scanFrom start progress last index a rest
    (advancesFrom index s.outcomes = [] ∧ s.progress = progress) ∨
      ∃ i event, (advancesFrom index s.outcomes).getLast? = some i ∧ events[i]? = some event ∧
        s.progress = some ⟨i, event.time⟩ := by
  induction rest generalizing progress last index e a with
  | nil => exact .inl ⟨rfl, rfl⟩
  | cons event rest ih =>
    have hevent := Event.getElem?_of_drop hrest
    rcases scanFrom_cons h with ⟨-, hscan⟩ | ⟨-, hscan⟩
    · rw [hscan]
      exact .inl ⟨rfl, rfl⟩
    · rw [hscan] at h ⊢
      have hih := ih (Event.drop_succ hrest) h
      dsimp only [Scan.after, advancesFrom] at hih ⊢
      split
      · rename_i hstepped
        rw [if_pos hstepped] at hih
        right
        rcases hih with ⟨hnone, hprogress⟩ | ⟨i, later, hlast, hlater, hprogress⟩
        · exact ⟨index, event, by rw [hnone]; rfl, hevent, hprogress⟩
        · exact ⟨i, later, by rw [List.getLast?_cons, hlast]; rfl, hlater, hprogress⟩
      · rename_i hstepped
        rw [if_neg hstepped] at hih
        exact hih

theorem feed_clock (h : ¬ (e.feed index event a).outcome.isFailure = true) :
    (e.feed index event a).attempt.baseline = (a.baseline <|> some event.time) ∧
      (e.feed index event a).attempt.deadline = a.deadline := by
  have hadvance := (e.feed_frame a index event).attempt
  refine ⟨?_, hadvance.deadline⟩
  rcases hadvance.baseline with hkept | ⟨hunset, hset⟩
  · rw [hkept]
    cases hbaseline : a.baseline with
    | none =>
      have hinvalid := feed_unset (hkept.trans hbaseline)
      rw [hinvalid] at h
      exact absurd rfl h
    | some baseline => rfl
  · rw [hset, hunset]
    rfl

theorem scanFrom_clock
    (h : (e.scanFrom start progress last index a rest).isSatisfied = true) :
    let s := e.scanFrom start progress last index a rest
    s.carried.baseline = (a.baseline <|> rest.head?.map Event.time) ∧
      s.carried.deadline = a.deadline := by
  induction rest generalizing progress last index e a with
  | nil =>
    refine ⟨?_, rfl⟩
    show a.baseline = (a.baseline <|> none)
    cases a.baseline <;> rfl
  | cons event rest ih =>
    obtain ⟨hbaseline, hdeadline⟩ := feed_clock (not_isFailure_of_isSatisfied h)
    rcases scanFrom_cons h with ⟨-, hscan⟩ | ⟨-, hscan⟩
    · rw [hscan]
      exact ⟨hbaseline, hdeadline⟩
    · rw [hscan] at h ⊢
      obtain ⟨hcarried, hlater⟩ := ih h
      refine ⟨hcarried.trans ?_, hlater.trans hdeadline⟩
      rw [hbaseline]
      cases a.baseline <;> rfl

theorem takenFrom_eq (hsteady : e.Steady) (hbefore : ∀ i ∈ e.indices, i < index)
    (h : (e.scanFrom start progress last index a rest).isSatisfied = true) :
    e.takenFrom index a rest =
      advancesFrom index (e.scanFrom start progress last index a rest).outcomes := by
  induction rest generalizing progress last index e a with
  | nil => rfl
  | cons event rest ih =>
    have hframe := e.feed_frame a index event
    have hfailure := not_isFailure_of_isSatisfied h
    have htaken : index ∈ (e.feed index event a).expression.indices ↔
        (e.feed index event a).outcome.isStepped = true := by
      refine ⟨fun hmem => ?_, mem_of_isStepped⟩
      -- The tree has held earlier events only, so it has just taken this one in.
      rcases hsteady e a index event rfl hmem with hmem | hstepped | hfailed
      · exact absurd (hbefore index hmem) (Nat.lt_irrefl index)
      · exact hstepped
      · exact absurd hfailed hfailure
    unfold takenFrom
    dsimp only
    simp only [htaken, hfailure, Bool.false_eq_true, false_or]
    rcases scanFrom_cons h with ⟨ho, hscan⟩ | ⟨ho, hscan⟩
    · rw [hscan, if_pos ho, ho]
      rfl
    · rw [hscan] at h ⊢
      rw [if_neg ho, ih ?_ ?_ h]
      · rfl
      · intro f b j later hf
        exact hsteady f b j later (hf.trans hframe.limits)
      · intro i hi
        rcases hframe.matched i hi with hi | rfl
        · exact Nat.lt_succ_of_lt (hbefore i hi)
        · exact Nat.lt_succ_self i

/-! ## The clock behind a step -/

theorem ceiling_reset (e : Expression) : e.reset.ceiling = e.ceiling := by
  induction e with
  | leaf => rfl
  | conditional op left right t ihl ihr => simp only [reset, ceiling, ihl, ihr, Tally.forget]

end Expression

theorem Scan.collected_clock (s : Scan) :
    s.collected.baseline = s.carried.baseline ∧ s.collected.deadline = s.carried.deadline := by
  unfold collected
  split
  · split <;> exact ⟨rfl, rfl⟩
  · exact ⟨rfl, rfl⟩

theorem Scan.movesOn {s : Scan} {e : Expression} {a : Attempt} {events : List Event}
    {indices : List Nat} {first : Event} (hsatisfied : s.isSatisfied = true)
    (hfirst : events[s.start]? = some first)
    (hbaseline : s.carried.baseline = some (a.baseline.getD first.time))
    (hdeadline : s.carried.deadline = a.deadline) (hceiling : s.expression.ceiling = e.ceiling)
    (hprogress : (indices = [] ∧ s.progress = none) ∨
      ∃ i event, indices.getLast? = some i ∧ events[i]? = some event ∧
        s.progress = some ⟨i, event.time⟩) :
    s.MovesOn e a events indices := by
  obtain ⟨hb, hd⟩ := s.collected_clock
  rw [hbaseline] at hb
  rw [hdeadline] at hd
  refine ⟨first, hfirst, ?_⟩
  unfold Scan.attempt
  rcases hprogress with ⟨rfl, hnone⟩ | ⟨i, event, hlast, hevent, hsome⟩
  · rw [hnone]
    exact ⟨hb, hd⟩
  · rw [hlast, hsome]
    dsimp only
    rw [if_pos hsatisfied, hceiling]
    unfold Attempt.handOver
    rw [hb]
    refine ⟨event, hevent, ?_⟩
    cases e.ceiling with
    | none => exact ⟨rfl, hd⟩
    | some c => exact ⟨rfl, rfl⟩

namespace Expression

/-- A satisfied step hands on a clock that has moved with the last event that advanced its root, and
one that has not moved if no event did. If its tree is steady, that is the last event that the tree
took in. -/
theorem scan_movesOn (e : Expression) (start : Nat) (a : Attempt) (events : List Event)
    (h : (e.reset.scan start a (events.drop start)).isSatisfied = true) :
    let s := e.reset.scan start a (events.drop start)
    s.MovesOn e a events (advancesFrom start s.outcomes) ∧
      (e.Steady → s.MovesOn e a events (e.reset.takenFrom start a (events.drop start))) := by
  intro s
  have hstart : s.start = start := start_scanFrom ..
  have hceiling : s.expression.ceiling = e.ceiling := by
    have hreset : s.expression.reset = e.reset.reset := reset_scanFrom ..
    rw [← ceiling_reset, hreset, ceiling_reset, ceiling_reset]
  obtain ⟨hbaseline, hdeadline⟩ := scanFrom_clock h
  -- A satisfied scan has seen an event, and the first one sets a clock that stands still.
  obtain ⟨first, hfirst⟩ : ∃ first, (events.drop start).head? = some first := by
    cases hrest : events.drop start with
    | nil =>
      rw [hrest] at h
      simp [scan, scanFrom, Scan.isSatisfied, Outcome.isAcceptable] at h
    | cons first rest => exact ⟨first, rfl⟩
  have hset : s.carried.baseline = some (a.baseline.getD first.time) := by
    rw [show s.carried.baseline = _ from hbaseline, hfirst]
    cases a.baseline <;> rfl
  rw [List.head?_drop] at hfirst
  have hmoves : s.MovesOn e a events (advancesFrom start s.outcomes) :=
    Scan.movesOn h (by rw [hstart]; exact hfirst) hset hdeadline hceiling (scanFrom_progress rfl h)
  refine ⟨hmoves, fun hsteady => ?_⟩
  have htaken : e.reset.takenFrom start a (events.drop start) = advancesFrom start s.outcomes := by
    apply takenFrom_eq _ _ h
    · intro f b i event hf
      exact hsteady f b i event (hf.trans e.reset_reset)
    · intro i hi
      exact absurd hi (e.not_mem_indices_reset i)
  rw [htaken]
  exact hmoves

/-- The clock of the step before ran from 0 to 5. The group of two alternatives is steady. -/
theorem scan_movesOn_alternatives :
    ∃ (p : Pattern) (step : Expression) (events : List Event),
      (Pattern.parse {} .empty "(A | B)[2]\x7bs 3\x7d => P").1 = .ok p ∧ p.steps = [step] ∧
        step.Steady ∧ step.reset.takenFrom 1 ⟨some 0, some 5, ∅⟩ (events.drop 1) = [1, 3] ∧
          (step.reset.scan 1 ⟨some 0, some 5, ∅⟩ (events.drop 1)).MovesOn step ⟨some 0, some 5, ∅⟩
            events [1, 3] := by
  obtain ⟨p, step, events, hp, hstep, hsteady, htaken, hsatisfied⟩ :
      ∃ (p : Pattern) (step : Expression) (events : List Event),
        (Pattern.parse {} .empty "(A | B)[2]\x7bs 3\x7d => P").1 = .ok p ∧ p.steps = [step] ∧
          step.Steady ∧ step.reset.takenFrom 1 ⟨some 0, some 5, ∅⟩ (events.drop 1) = [1, 3] ∧
            (step.reset.scan 1 ⟨some 0, some 5, ∅⟩ (events.drop 1)).isSatisfied = true := by
    refine ⟨_, _, [⟨⟨2⟩, 0⟩, ⟨⟨0⟩, 1⟩, ⟨⟨2⟩, 2⟩, ⟨⟨1⟩, 2.5⟩, ⟨⟨2⟩, 6⟩], rfl, rfl, ?_,
      by decide +kernel, by decide +kernel⟩
    apply alternatives_steady
    · exact rfl
    · exact rfl
  refine ⟨p, step, events, hp, hstep, hsteady, htaken, ?_⟩
  rw [← htaken]
  exact (scan_movesOn step 1 ⟨some 0, some 5, ∅⟩ events hsatisfied).2 hsteady

/-- Each side of `&` takes its event in while the other one lacks its own or has it already. The
root never advances, so the clock stays at the first event, without a deadline. -/
theorem scan_movesOn_not_taken :
    ∃ (p : Pattern) (step : Expression) (events : List Event),
      (Pattern.parse {} .empty "A & B => P").1 = .ok p ∧ p.steps = [step] ∧
        (step.reset.scan 0 {} (events.drop 0)).isSatisfied = true ∧
          step.reset.takenFrom 0 {} (events.drop 0) = [0, 1] ∧
            ¬ (step.reset.scan 0 {} (events.drop 0)).MovesOn step {} events [0, 1] := by
  refine ⟨_, _, [⟨⟨0⟩, 0⟩, ⟨⟨1⟩, 0.4⟩], rfl, rfl, rfl, rfl, ?_⟩
  rintro ⟨first, -, event, -, -, hdeadline⟩
  cases hdeadline

end Expression

end TimedPattern
