import Mathlib.Data.List.Forall2
import TimedPattern.Pattern.Search

/-!
# Two runs side by side

What holds for feeding one event carries over to scans, trials and matches.
-/

namespace TimedPattern

open List (Forall₂)

structure Simulation where
  tree : Expression → Expression → Prop
  attempt : Attempt → Attempt → Prop
  event : Event → Event → Prop
  time : ∀ {x y}, event x y → x.time = y.time
  indices : ∀ {e f}, tree e f → e.indices = f.indices
  collected : ∀ {a b}, attempt a b → a.indices = b.indices
  collect : ∀ {a b} (s : IndexSet), attempt a b → attempt (a.collect s) (b.collect s)
  handOver : ∀ {e f a b} (time : Float), tree e f → attempt a b →
    attempt (a.handOver e.ceiling time) (b.handOver f.ceiling time)
  outcome : ∀ {e f a b x y} (index : Nat), tree e f → attempt a b → event x y →
    (e.feed index x a).outcome = (f.feed index y b).outcome
  fed : ∀ {e f a b x y} (index : Nat), tree e f → attempt a b → event x y →
    tree (e.feed index x a).expression (f.feed index y b).expression
  carried : ∀ {e f a b x y} (index : Nat), tree e f → attempt a b → event x y →
    attempt (e.feed index x a).attempt (f.feed index y b).attempt

namespace Simulation

variable {S : Simulation}

/-! ## Scans -/

/-- Two scans that ended alike. What a failed scan leaves does not matter. -/
structure Scans (S : Simulation) (s u : Scan) : Prop where
  start : s.start = u.start
  progress : s.progress = u.progress
  ending : s.ending = u.ending
  tree : s.isSatisfied = true → S.tree s.expression u.expression
  carried : s.isSatisfied = true → S.attempt s.carried u.carried

namespace Scans

variable {s u : Scan}

theorem after (o p : Outcome) (h : S.Scans s u) : S.Scans (s.after o) (u.after p) :=
  ⟨h.start, h.progress, h.ending, h.tree, h.carried⟩

theorem isSatisfied (h : S.Scans s u) : s.isSatisfied = u.isSatisfied := by
  unfold Scan.isSatisfied
  rw [h.ending]

theorem anchor (h : S.Scans s u) : s.anchor = u.anchor := by
  unfold Scan.anchor
  rw [h.progress, h.start]

theorem resume (h : S.Scans s u) (isLast : Bool) : s.resume isLast = u.resume isLast := by
  unfold Scan.resume
  rw [h.isSatisfied, h.ending, h.anchor]

theorem collected (h : S.Scans s u) (hs : s.isSatisfied = true) :
    S.attempt s.collected u.collected := by
  have hcarried := h.carried hs
  unfold Scan.collected
  rw [h.ending, S.indices (h.tree hs)]
  split
  · split
    · exact S.collect _ hcarried
    · exact hcarried
  · exact hcarried

theorem attempt (h : S.Scans s u) (hs : s.isSatisfied = true) : S.attempt s.attempt u.attempt := by
  have hcollected := h.collected hs
  unfold Scan.attempt
  rw [h.progress, ← h.isSatisfied, hs]
  split
  · exact S.handOver _ (h.tree hs) hcollected
  · exact hcollected

end Scans

theorem scanFrom {e f : Expression} {a b : Attempt} {xs ys : List Event} (he : S.tree e f)
    (ha : S.attempt a b) (hevents : Forall₂ S.event xs ys) (start index : Nat)
    (progress : Option Progress) (last : Outcome) :
    S.Scans (e.scanFrom start progress last index a xs)
      (f.scanFrom start progress last index b ys) := by
  induction hevents generalizing e f a b index progress last with
  | nil => exact ⟨rfl, rfl, rfl, fun _ => he, fun _ => ha⟩
  | cons hevent _ ih =>
    have hfed := S.fed index he ha hevent
    have hcarried := S.carried index he ha hevent
    unfold Expression.scanFrom
    dsimp only
    rw [← S.outcome index he ha hevent, ← S.time hevent]
    split
    · exact ⟨rfl, rfl, rfl, fun _ => hfed, fun _ => hcarried⟩
    · split
      · exact ⟨rfl, rfl, rfl, fun _ => hfed, fun _ => hcarried⟩
      · exact (ih hfed hcarried _ _ _).after _ _

/-! ## Trials -/

theorem run_cons {steps steps' : List Expression} {step step' : Expression} {index : Nat}
    {a b : Attempt} {xs ys : List Event} (hsteps : Forall₂ S.tree steps steps')
    (hevents : Forall₂ S.event xs ys)
    (hrest : ∀ {index a b xs ys}, S.attempt a b → Forall₂ S.event xs ys →
      (Trial.run index a xs steps).verdict = (Trial.run index b ys steps').verdict)
    (hscan : xs ≠ [] → S.Scans (step.scan index a xs) (step'.scan index b ys)) :
    (Trial.run index a xs (step :: steps)).verdict =
      (Trial.run index b ys (step' :: steps')).verdict := by
  cases hevents with
  | nil => simp [Trial.run]
  | cons hevent hevents =>
    have hscan := hscan (by simp)
    unfold Trial.run
    simp only [List.isEmpty_cons, Bool.false_eq_true, if_false]
    rw [← hscan.isSatisfied]
    split
    · rename_i hsatisfied
      have hattempt := hscan.attempt hsatisfied
      cases hsteps with
      | nil =>
        dsimp only
        rw [S.collected hattempt, hscan.resume]
      | cons hstep hsteps =>
        dsimp only [Trial.after]
        rw [← hscan.resume]
        exact hrest hattempt (List.forall₂_drop _ (.cons hevent hevents))
    · dsimp only
      rw [hscan.resume]

theorem run {steps steps' : List Expression} (hsteps : Forall₂ S.tree steps steps') {index : Nat}
    {a b : Attempt} {xs ys : List Event} (ha : S.attempt a b) (hevents : Forall₂ S.event xs ys) :
    (Trial.run index a xs steps).verdict = (Trial.run index b ys steps').verdict := by
  induction hsteps generalizing index a b xs ys with
  | nil => simp [Trial.run]
  | cons hstep hsteps ih =>
    exact run_cons hsteps hevents (fun ha hevents => ih ha hevents)
      fun _ => scanFrom hstep ha hevents index index none .invalid

end Simulation

/-! ## Matches -/

namespace Pattern

variable {p q : Pattern} {R : Event → Event → Prop}

theorem trialsFrom_verdict {xs ys : List Event} (hevents : Forall₂ R xs ys)
    (h : ∀ {index xs ys}, Forall₂ R xs ys →
      (Trial.run index {} xs p.steps).verdict = (Trial.run index {} ys q.steps).verdict)
    (index skip : Nat) :
    Forall₂ (fun t u => t.verdict = u.verdict) (p.trialsFrom index skip xs)
      (q.trialsFrom index skip ys) := by
  induction hevents generalizing index skip with
  | nil => exact .nil
  | cons hevent hevents ih =>
    cases skip with
    | succ skip => exact ih (index + 1) skip
    | zero =>
      have hverdict := @h index _ _ (.cons hevent hevents)
      unfold trialsFrom
      dsimp only
      have hnext {t u : Trial} (h : t.verdict = u.verdict) : t.next? = u.next? := by
        unfold Trial.next?
        rw [h]
      rw [← hnext hverdict]
      split
      · exact .cons hverdict (ih _ _)
      · exact .cons hverdict .nil

theorem findMatches_congr {xs ys : List Event} (hevents : Forall₂ R xs ys)
    (h : ∀ {index xs ys}, Forall₂ R xs ys → (Trial.run index {} xs p.reset.steps).verdict =
      (Trial.run index {} ys q.reset.steps).verdict) :
    p.findMatches xs = q.findMatches ys := by
  have htrials := trialsFrom_verdict hevents h 0 0
  unfold findMatches trials
  generalize p.reset.trialsFrom 0 0 xs = ts at htrials ⊢
  generalize q.reset.trialsFrom 0 0 ys = us at htrials ⊢
  induction htrials with
  | nil => rfl
  | cons hverdict _ ih =>
    have hmatch {t u : Trial} (h : t.verdict = u.verdict) : t.match? = u.match? := by
      unfold Trial.match?
      rw [h]
    rw [List.filterMap_cons, List.filterMap_cons, hmatch hverdict, ih]

end Pattern

end TimedPattern
