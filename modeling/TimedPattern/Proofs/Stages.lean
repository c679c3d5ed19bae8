import Mathlib.Logic.Relation
import TimedPattern.Pattern.Stage
import TimedPattern.Proofs.StepOrder

/-!
# Stages and trials

One trial is as many stages as it has scans, and whenever a stage starts an attempt, nothing is left
of the attempts before.
-/

namespace TimedPattern

theorem Expression.reset_scan (e : Expression) (start : Nat) (a : Attempt) (events : List Event) :
    (e.scan start a events).expression.reset = e.reset :=
  reset_scanFrom ..

namespace Pattern

@[simp] theorem reset_reset (p : Pattern) : p.reset.reset = p.reset := by
  simp [reset]

theorem findMatches_reset (p : Pattern) : p.reset.findMatches = p.findMatches := by
  funext events
  unfold findMatches trials
  rw [reset_reset]

end Pattern

namespace Trial

@[simp] theorem left_nil (verdict : Verdict) (steps : List Expression) :
    left ⟨[], verdict⟩ steps = steps := rfl

@[simp] theorem left_cons (s : Scan) (scans : List Scan) (verdict : Verdict) (step : Expression)
    (steps : List Expression) :
    left ⟨s :: scans, verdict⟩ (step :: steps) = s.expression :: left ⟨scans, verdict⟩ steps := rfl

theorem match?_of_next?_eq_none {t : Trial} (h : t.next? = none) : t.match? = none := by
  cases hmatch : t.match? with
  | none => rfl
  | some m =>
    obtain ⟨-, indices, resume, hverdict, -⟩ := match?_eq_some hmatch
    rw [next?, hverdict] at h
    dsimp only at h
    split at h <;> simp at h

end Trial

namespace Stage

variable {p : Pattern} {events : List Event} {s t u : Stage}

/-- One stage comes after another by some number of scans. -/
def Leads (events : List Event) : Stage → Stage → Prop :=
  Relation.ReflTransGen fun s t => s.next? events = some t

/-- The trial that the steps still to do make up. -/
def trial (events : List Event) (s : Stage) : Trial :=
  Trial.run s.position s.attempt (events.drop s.position) s.todo

/-! ## One scan -/

/-- The attempt goes on after a scan, with one step less to do. -/
structure GoesOn (events : List Event) (scan : Scan) (s t : Stage) : Prop where
  trial : s.trial events = (t.trial events).after scan
  todo : ∃ step, s.todo = step :: t.todo ∧ scan.expression.reset = step.reset
  done : t.done = scan.expression :: s.done
  start : t.start = s.start
  found : t.found = s.found

theorem GoesOn.steps_eq {scan : Scan} (h : GoesOn events scan s t) :
    t.steps.map Expression.reset = s.steps.map Expression.reset := by
  obtain ⟨step, htodo, hreset⟩ := h.todo
  simp [steps, htodo, hreset, h.done]

theorem GoesOn.left_eq {scan : Scan} (h : GoesOn events scan s t) :
    t.done.reverse ++ (t.trial events).left t.todo =
      s.done.reverse ++ (s.trial events).left s.todo := by
  obtain ⟨step, htodo, -⟩ := h.todo
  rw [h.trial, h.done, htodo]
  simp [Trial.after]

/-- Another attempt, with the match of this one put down. -/
def settle (events : List Event) (s : Stage) (resume : Nat) : Stage :=
  restart { s with found := s.found ++ (s.trial events).match?.toList } resume

theorem GoesOn.settle_eq {scan : Scan} (h : GoesOn events scan s t) (resume : Nat) :
    t.settle events resume = s.settle events resume := by
  have hsteps := h.steps_eq
  unfold settle restart
  unfold steps at hsteps ⊢
  simp only [hsteps, h.start, h.found, h.trial]
  rfl

theorem trial_of_next?_eq_none (h : s.next? events = none) :
    s.trial events = ⟨[], .unfinished⟩ := by
  unfold next? at h
  unfold trial
  split at h
  · rename_i htodo
    rw [htodo, Trial.run]
  · rename_i step rest htodo
    split at h
    · dsimp only at h
      split at h
      · split at h <;> simp at h
      · simp at h
    · rename_i hover
      have hdrop : events.drop s.position = [] := List.drop_eq_nil_of_le (by omega)
      simp [htodo, hdrop, Trial.run]

theorem restart_scanned {step : Expression} {rest : List Expression} (htodo : s.todo = step :: rest)
    (found : List (List Nat)) (resume : Nat) :
    restart { s with todo := (s.scan events step).expression :: rest, found } resume =
      restart { s with found } resume := by
  simp [restart, steps, scan, htodo, step.reset_scan]

theorem complete_eq (s : Stage) {t : Trial} {indices : IndexSet} {resume : Nat}
    (h : t.verdict = .complete indices resume) :
    ∃ n, t.next? = some n ∧
      s.complete indices resume = restart { s with found := s.found ++ t.match?.toList } n := by
  have hfound : s.found ++ t.match?.toList =
      if indices.isEmpty then s.found else s.found ++ [indices.toList] := by
    by_cases hempty : indices.isEmpty = true <;> simp [Trial.match?, h, hempty]
  rw [hfound]
  unfold complete Trial.next?
  rw [h]
  cases hlast : indices.last? with
  | none => simp [hlast]
  | some last => simp [hlast]

section

variable {step next : Expression} {rest : List Expression}

theorem goesOn_of_satisfied (htodo : s.todo = step :: next :: rest)
    (hlt : s.position < events.length) (hsatisfied : (s.scan events step).isSatisfied = true) :
    GoesOn events (s.scan events step) s
      { s with
        done := (s.scan events step).expression :: s.done
        todo := next :: rest
        attempt := (s.scan events step).attempt
        position := (s.scan events step).resume false } := by
  have hstart : s.position ≤ (s.scan events step).resume false := by
    have := step.start_le_anchor s.position s.attempt (events.drop s.position)
    simp only [Scan.resume, Bool.and_false, Bool.false_eq_true, if_false]
    exact Nat.le_succ_of_le this
  refine ⟨?_, ⟨step, htodo, step.reset_scan ..⟩, rfl, rfl, rfl⟩
  unfold trial
  rw [htodo, Trial.run, if_neg (by simpa using hlt)]
  unfold scan at hsatisfied hstart ⊢
  dsimp only
  rw [if_pos hsatisfied, Trial.drop_rest rfl hstart]

theorem settle_of_satisfied (htodo : s.todo = [step]) (hlt : s.position < events.length)
    (hsatisfied : (s.scan events step).isSatisfied = true) :
    ∃ resume, (s.trial events).next? = some resume ∧
      complete { s with todo := [(s.scan events step).expression] }
        (s.scan events step).attempt.indices ((s.scan events step).resume true) =
        s.settle events resume := by
  have htrial : s.trial events = ⟨[s.scan events step],
      .complete (s.scan events step).attempt.indices ((s.scan events step).resume true)⟩ := by
    unfold trial
    rw [htodo, Trial.run, if_neg (by simpa using hlt)]
    exact if_pos hsatisfied
  obtain ⟨n, hn, hcomplete⟩ :=
    complete_eq { s with todo := [(s.scan events step).expression] } (congrArg Trial.verdict htrial)
  exact ⟨n, hn, hcomplete.trans (restart_scanned htodo _ n)⟩

theorem settle_of_failed (htodo : s.todo = step :: rest) (hlt : s.position < events.length)
    (hfailed : ¬ (s.scan events step).isSatisfied = true) :
    ∃ resume, (s.trial events).next? = some resume ∧
      restart { s with todo := (s.scan events step).expression :: rest }
        ((s.scan events step).resume false) = s.settle events resume := by
  have htrial : s.trial events =
      ⟨[s.scan events step], .failed ((s.scan events step).resume false)⟩ := by
    unfold trial
    rw [htodo, Trial.run, if_neg (by simpa using hlt)]
    exact if_neg hfailed
  unfold settle
  rw [htrial]
  simp only [Trial.match?, Option.toList_none, List.append_nil]
  exact ⟨_, rfl, restart_scanned htodo s.found _⟩

end

theorem next?_eq_some (h : s.next? events = some t) :
    (∃ scan, GoesOn events scan s t) ∨
      ∃ resume, (s.trial events).next? = some resume ∧ t = s.settle events resume := by
  unfold next? at h
  split at h
  · simp at h
  · rename_i step rest htodo
    split at h
    · rename_i hlt
      dsimp only at h
      split at h
      · rename_i hsatisfied
        cases rest with
        | nil =>
          obtain rfl := Option.some.inj h
          exact .inr (settle_of_satisfied htodo hlt hsatisfied)
        | cons next rest =>
          obtain rfl := Option.some.inj h
          exact .inl ⟨_, goesOn_of_satisfied htodo hlt hsatisfied⟩
      · rename_i hfailed
        obtain rfl := Option.some.inj h
        exact .inr (settle_of_failed htodo hlt hfailed)
    · simp at h

/-! ## One attempt -/

theorem Leads.head (h : s.next? events = some t) (ht : t.Leads events u) : s.Leads events u :=
  Relation.ReflTransGen.head h ht

theorem Leads.trans (h : s.Leads events t) (ht : t.Leads events u) : s.Leads events u :=
  Relation.ReflTransGen.trans h ht

theorem GoesOn.length_lt {scan : Scan} (h : GoesOn events scan s t) :
    t.todo.length < s.todo.length := by
  obtain ⟨step, htodo, -⟩ := h.todo
  simp [htodo]

theorem leads_settle {resume : Nat} (h : (s.trial events).next? = some resume) :
    s.Leads events (s.settle events resume) := by
  -- By induction on the number of steps still to do, which every scan makes less.
  induction hlength : s.todo.length using Nat.strong_induction_on generalizing s with
  | _ n ih =>
    cases hnext : s.next? events with
    | none =>
      rw [trial_of_next?_eq_none hnext] at h
      simp [Trial.next?] at h
    | some t =>
      apply Leads.head hnext
      rcases next?_eq_some hnext with ⟨scan, hgoes⟩ | ⟨m, hm, rfl⟩
      · rw [hgoes.trial] at h
        rw [← hgoes.settle_eq]
        exact ih _ (hlength ▸ hgoes.length_lt) h rfl
      · obtain rfl : resume = m := Option.some.inj (h.symm.trans hm)
        exact .refl

theorem leads_end (h : (s.trial events).next? = none) :
    ∃ u, s.Leads events u ∧ u.next? events = none ∧ u.found = s.found ∧
      u.steps = s.done.reverse ++ (s.trial events).left s.todo := by
  induction hlength : s.todo.length using Nat.strong_induction_on generalizing s with
  | _ n ih =>
    cases hnext : s.next? events with
    | none =>
      rw [trial_of_next?_eq_none hnext]
      exact ⟨s, .refl, hnext, rfl, rfl⟩
    | some t =>
      rcases next?_eq_some hnext with ⟨scan, hgoes⟩ | ⟨m, hm, rfl⟩
      · rw [hgoes.trial] at h
        obtain ⟨u, hu, hend, hfound, hsteps⟩ := ih _ (hlength ▸ hgoes.length_lt) h rfl
        exact ⟨u, .head hnext hu, hend, hfound.trans hgoes.found, hsteps.trans hgoes.left_eq⟩
      · rw [h] at hm
        simp at hm

/-! ## The whole search -/

theorem leftAfter_cons {t : Trial} {next : Nat} (h : t.next? = some next) (trials : List Trial) :
    p.leftAfter (t :: trials) = p.leftAfter trials := by
  cases trials with
  | nil => simp [Pattern.leftAfter, h]
  | cons u trials => simp [Pattern.leftAfter]

theorem next?_of_le (h : events.length ≤ s.position) : s.next? events = none := by
  unfold next?
  split
  · rfl
  · exact if_neg (Nat.not_lt.2 h)

theorem settle_eq_fresh (hsteps : s.steps.map Expression.reset = p.reset.steps) (resume : Nat) :
    s.settle events resume =
      fresh p (max resume (s.start + 1)) (s.found ++ (s.trial events).match?.toList) := by
  unfold steps at hsteps
  simp only [settle, restart, fresh, steps, hsteps]

theorem fresh_steps (p : Pattern) (position : Nat) (found : List (List Nat)) :
    (fresh p position found).steps.map Expression.reset = p.reset.steps :=
  congrArg Pattern.steps p.reset_reset

theorem trial_fresh {index : Nat} {rest : List Event} (hrest : events.drop index = rest)
    (p : Pattern) (found : List (List Nat)) :
    (fresh p index found).trial events = Trial.run index {} rest p.reset.steps := by
  unfold trial fresh
  rw [hrest]

theorem fresh_leads_last (p : Pattern) (found : List (List Nat)) (index skip : Nat)
    {rest : List Event} (hrest : events.drop index = rest) :
    let trials := p.reset.trialsFrom index skip rest
    ∃ u, (fresh p (index + skip) found).Leads events u ∧ u.next? events = none ∧
      u.found = found ++ trials.filterMap Trial.match? ∧ u.steps = (p.leftAfter trials).steps := by
  fun_induction p.reset.trialsFrom index skip rest generalizing found with
  | case1 index skip =>
    have hover : events.length ≤ index + skip := by
      have := List.drop_eq_nil_iff.1 hrest
      omega
    exact ⟨_, .refl, next?_of_le hover, by simp [fresh], by simp [fresh, steps, Pattern.leftAfter]⟩
  | case2 index skip event rest ih =>
    rw [show index + (skip + 1) = index + 1 + skip by omega]
    exact ih found (Event.drop_succ hrest)
  | case3 index event rest t next hnext ih =>
    have htrial : (fresh p index found).trial events = t := trial_fresh hrest p found
    rw [← htrial] at hnext
    -- The next trial starts with fresh steps.
    have hsettle := leads_settle hnext
    rw [htrial] at hnext
    have hposition : max next (index + 1) = index + 1 + (next - (index + 1)) := by omega
    rw [settle_eq_fresh (fresh_steps p index found), htrial] at hsettle
    change Leads _ _ (fresh p (max next (index + 1)) (found ++ t.match?.toList)) at hsettle
    rw [hposition] at hsettle
    obtain ⟨u, hu, hend, hfound, hsteps⟩ :=
      ih (found ++ t.match?.toList) (Event.drop_succ hrest)
    refine ⟨u, Leads.trans hsettle hu, hend, ?_, ?_⟩
    · cases hmatch : t.match? <;> simp [hfound, hmatch]
    · rw [hsteps, leftAfter_cons hnext]
  | case4 index event rest t hnext =>
    have htrial : (fresh p index found).trial events = t := trial_fresh hrest p found
    rw [← htrial] at hnext
    obtain ⟨u, hu, hend, hfound, hsteps⟩ := leads_end hnext
    rw [htrial] at hnext hsteps
    refine ⟨u, hu, hend, ?_, ?_⟩
    · simp [hfound, Trial.match?_of_next?_eq_none hnext, fresh]
    · simp [hsteps, Pattern.leftAfter, hnext, fresh]

/-- The last stage of a search: it has the matches of the pattern and the steps that it leaves. -/
theorem first_leads_last (p : Pattern) (events : List Event) :
    ∃ u, (first p).Leads events u ∧ u.next? events = none ∧ u.found = p.findMatches events ∧
      u.steps = (p.leftBy events).steps := by
  obtain ⟨u, hu, hend, hfound, hsteps⟩ :=
    fresh_leads_last p [] 0 0 (List.drop_zero : events.drop 0 = events)
  exact ⟨u, hu, hend, hfound, hsteps⟩

/-! ## Starts of attempts -/

/-- A stage of a search has the steps of its pattern, and if it starts an attempt, nothing else. -/
structure Sound (p : Pattern) (s : Stage) : Prop where
  steps : s.steps.map Expression.reset = p.reset.steps
  fresh : s.done = [] → s = fresh p s.position s.found

theorem fresh_sound (p : Pattern) (position : Nat) (found : List (List Nat)) :
    (fresh p position found).Sound p :=
  ⟨fresh_steps p position found, fun _ => rfl⟩

theorem Sound.next (hs : s.Sound p) (h : s.next? events = some t) : t.Sound p := by
  rcases next?_eq_some h with ⟨scan, hgoes⟩ | ⟨resume, -, rfl⟩
  · refine ⟨hgoes.steps_eq.trans hs.steps, fun hdone => ?_⟩
    rw [hgoes.done] at hdone
    simp at hdone
  · rw [settle_eq_fresh hs.steps]
    exact fresh_sound ..

theorem Sound.leads (hs : s.Sound p) (h : s.Leads events t) : t.Sound p := by
  induction h with
  | refl => exact hs
  | tail _ hnext ih => exact ih.next hnext

theorem Leads.eq_of_last (h : s.Leads events t) (hlast : s.next? events = none) : s = t := by
  rcases Relation.ReflTransGen.cases_head h with rfl | ⟨u, hu, -⟩
  · rfl
  · rw [hlast] at hu
    simp at hu

theorem rightUnique_next? : Relator.RightUnique fun s t : Stage => s.next? events = some t :=
  fun _ _ _ ht hu => Option.some.inj (ht.symm.trans hu)

theorem Leads.last_unique (ht : s.Leads events t) (hu : s.Leads events u)
    (htlast : t.next? events = none) (hulast : u.next? events = none) : t = u := by
  rcases Relation.ReflTransGen.total_of_right_unique rightUnique_next? ht hu with h | h
  · exact Leads.eq_of_last h htlast
  · exact (Leads.eq_of_last h hulast).symm

end Stage

/-- A search changes what steps hold, but not what they ask for. -/
theorem Pattern.reset_leftBy (p : Pattern) (events : List Event) :
    (p.leftBy events).reset = p.reset := by
  obtain ⟨u, hu, -, -, hsteps⟩ := Stage.first_leads_last p events
  have hname : (p.leftBy events).name = p.name := by
    unfold leftBy leftAfter
    split
    · split <;> rfl
    · rfl
  have hreset := ((Stage.fresh_sound p 0 []).leads hu).steps
  rw [hsteps] at hreset
  unfold reset at hreset ⊢
  rw [hname, hreset]

end TimedPattern
