import TimedPattern.Pattern.Search
import TimedPattern.Proofs.Chain.Scan

/-! # Satisfied steps -/

namespace TimedPattern

/-! ## What a tree asks for -/

namespace Expression

/-- A node with a count needs it in range. Without one, `&` needs both of its sides, `|` one of
them, and a leaf is never satisfied. -/
inductive Satisfied : Expression → Prop where
  | counted {e : Expression} {range : Range} (limited : e.tally.occurrences = some range)
      (enough : range.minimum ≤ Float.ofNat e.tally.matched.size)
      (not_too_many : Float.ofNat e.tally.matched.size ≤ range.maximum) : Satisfied e
  | both {left right : Expression} {t : Tally} (unlimited : t.occurrences = none)
      (left_satisfied : Satisfied left) (right_satisfied : Satisfied right) :
      Satisfied (conditional .and left right t)
  | left {left right : Expression} {t : Tally} (unlimited : t.occurrences = none)
      (left_satisfied : Satisfied left) : Satisfied (conditional .or left right t)
  | right {left right : Expression} {t : Tally} (unlimited : t.occurrences = none)
      (right_satisfied : Satisfied right) : Satisfied (conditional .or left right t)

theorem satisfied_of_meets {e : Expression} {range : Range}
    (hlimited : e.tally.occurrences = some range) (hmeets : e.tally.meets range = true) :
    e.Satisfied := by
  obtain ⟨henough, hmany⟩ := of_decide_eq_true hmeets
  exact .counted hlimited henough hmany

theorem isSatisfied_of_limited {e : Expression} {range : Range}
    (hlimited : e.tally.occurrences = some range) : e.isSatisfied = e.tally.meets range := by
  cases e with
  | leaf behavior name t =>
    show t.occurrences.any t.meets = t.meets range
    rw [show t.occurrences = some range from hlimited]
    rfl
  | conditional op left right t =>
    unfold isSatisfied
    rw [show t.occurrences = some range from hlimited]
    rfl

theorem isSatisfied_iff {e : Expression} : e.isSatisfied = true ↔ e.Satisfied := by
  constructor
  · intro h
    induction e with
    | leaf behavior name t =>
      obtain ⟨range, hrange, hmeets⟩ := (Option.any_eq_true ..).1 h
      exact satisfied_of_meets hrange hmeets
    | conditional op left right t ihl ihr =>
      cases hoccurrences : t.occurrences with
      | some range =>
        rw [isSatisfied_of_limited (e := conditional op left right t) hoccurrences] at h
        exact satisfied_of_meets hoccurrences h
      | none =>
        unfold isSatisfied at h
        rw [hoccurrences] at h
        cases op with
        | and =>
          obtain ⟨hl, hr⟩ := Bool.and_eq_true_iff.1 h
          exact .both hoccurrences (ihl hl) (ihr hr)
        | or =>
          rcases Bool.or_eq_true_iff.1 h with hl | hr
          · exact .left hoccurrences (ihl hl)
          · exact .right hoccurrences (ihr hr)
  · intro h
    induction h with
    | counted hlimited henough hmany =>
      rw [isSatisfied_of_limited hlimited]
      exact decide_eq_true ⟨henough, hmany⟩
    | both hunlimited _ _ ihl ihr => simp [isSatisfied, hunlimited, ihl, ihr]
    | left hunlimited _ ih => simp [isSatisfied, hunlimited, ih]
    | right hunlimited _ ih => simp [isSatisfied, hunlimited, ih]

end Expression

/-! ## Outcomes that report success -/

theorem Tally.judge_acceptable {t : Tally} {o : Outcome}
    (h : (t.judge o).1.isAcceptable = true) :
    (t.judge o).2 = t ∧
      ((∃ range, t.occurrences = some range ∧ t.meets range = true) ∨
        t.occurrences = none ∧ o.isAcceptable = true) := by
  cases hoccurrences : t.occurrences with
  | none =>
    unfold judge at h ⊢
    rw [hoccurrences] at h ⊢
    exact ⟨rfl, .inr ⟨rfl, h⟩⟩
  | some range =>
    rcases judge_reports hoccurrences o with hfailure | ⟨htally, hreports⟩
    · generalize (t.judge o).1 = verdict at h hfailure
      cases verdict <;> simp_all [Outcome.isFailure, Outcome.isAcceptable]
    · exact ⟨htally, .inl ⟨range, rfl, hreports.acceptable h⟩⟩

theorem Tally.settle_acceptable {t : Tally} {a : Attempt} {index : Nat} {time : Float}
    {o : Outcome} (h : (t.settle a index time o).1.isAcceptable = true) :
    (∃ range, (t.settle a index time o).2.1.occurrences = some range ∧
        (t.settle a index time o).2.1.meets range = true) ∨
      (t.settle a index time o).2.1.occurrences = none ∧ o.isAcceptable = true := by
  unfold settle at h ⊢
  generalize t.record a index time o = r at h ⊢
  dsimp only at h ⊢
  split at h
  · simp [Outcome.isAcceptable] at h
  · rename_i hvalid
    obtain ⟨htally, hcases⟩ := judge_acceptable h
    rw [if_neg hvalid]
    dsimp only
    rw [htally]
    exact hcases

namespace Operator

theorem join_and_acceptable {o p : Outcome} (h : (and.join o p).isAcceptable = true) :
    o.isAcceptable = true ∧ p.isAcceptable = true := by
  have hrank : (o.worse p).rank ≤ 2 := Outcome.isAcceptable_iff.1 h
  rw [Outcome.rank_worse] at hrank
  rw [Outcome.isAcceptable_iff, Outcome.isAcceptable_iff]
  omega

theorem join_or_acceptable {o p : Outcome} (h : (or.join o p).isAcceptable = true) :
    o.isAcceptable = true ∨ p.isAcceptable = true := by
  have hrank : (o.better p).rank ≤ 2 := Outcome.isAcceptable_iff.1 h
  rw [Outcome.rank_better] at hrank
  rw [Outcome.isAcceptable_iff, Outcome.isAcceptable_iff]
  omega

end Operator

namespace Expression

theorem expire_acceptable {e : Expression} {a : Attempt}
    (h : (e.expire a).outcome.isAcceptable = true) : (e.expire a).expression.Satisfied := by
  unfold expire at h ⊢
  split at h
  · rename_i hsatisfied
    rw [if_pos hsatisfied]
    exact isSatisfied_iff.1 hsatisfied
  · simp [Outcome.isAcceptable] at h

theorem feed_acceptable {e : Expression} {a : Attempt} {index : Nat} {event : Event}
    (h : (e.feed index event a).outcome.isAcceptable = true) :
    (e.feed index event a).expression.Satisfied := by
  induction e generalizing a with
  | leaf behavior name t =>
    unfold feed at h ⊢
    split at h
    · simp [Outcome.isAcceptable] at h
    · exact expire_acceptable h
    · rcases Tally.settle_acceptable h with ⟨range, hlimited, hmeets⟩ | ⟨-, ho⟩
      · exact satisfied_of_meets hlimited hmeets
      · split at ho <;> simp [Outcome.isAcceptable] at ho
  | conditional op left right t ihl ihr =>
    unfold feed at h ⊢
    split at h
    · simp [Outcome.isAcceptable] at h
    · exact expire_acceptable h
    · rcases Tally.settle_acceptable h with ⟨range, hlimited, hmeets⟩ | ⟨hunlimited, ho⟩
      · exact satisfied_of_meets hlimited hmeets
      · cases op with
        | and =>
          obtain ⟨hl, hr⟩ := Operator.join_and_acceptable ho
          exact .both hunlimited (ihl hl) (ihr hr)
        | or =>
          rcases Operator.join_or_acceptable ho with hl | hr
          · exact .left hunlimited (ihl hl)
          · exact .right hunlimited (ihr hr)

/-! ## Scans -/

theorem scanFrom_satisfied {e : Expression} {a : Attempt} {start index : Nat}
    {progress : Option Progress} {last : Outcome} {events : List Event}
    (hlast : last.isAcceptable = true → e.Satisfied)
    (h : (e.scanFrom start progress last index a events).isSatisfied = true) :
    (e.scanFrom start progress last index a events).expression.Satisfied := by
  induction events generalizing progress last index e a with
  | nil => exact hlast h
  | cons event rest ih =>
    have hfeed := @feed_acceptable e a index event
    unfold scanFrom at h ⊢
    dsimp only at h ⊢
    split at h
    · simp [Scan.isSatisfied] at h
    · rename_i hgoes
      rw [if_neg hgoes]
      split at h
      · rename_i hcompleted
        rw [if_pos hcompleted]
        exact hfeed (by rw [hcompleted]; rfl)
      · rename_i hnot
        rw [if_neg hnot]
        exact ih hfeed h

/-- Whenever a scan succeeds, the tree that it leaves is satisfied. -/
theorem scan_satisfied (e : Expression) (a : Attempt) (events : List Event) (start : Nat)
    (h : (e.scan start a (events.drop start)).isSatisfied = true) :
    (e.scan start a (events.drop start)).expression.Satisfied :=
  scanFrom_satisfied (by simp [Outcome.isAcceptable]) h

/-- The window of the whole step passes once both sides have their counts. -/
theorem scan_satisfied_expired : ∃ (p : Pattern) (step : Expression) (events : List Event),
    (Pattern.parse {} .empty "(A & B[1:2])\x7bs 2\x7d => P").1 = .ok p ∧ p.steps = [step] ∧
      (step.scan 1 {} (events.drop 1)).ending = .completed 4 ∧
      (step.scan 1 {} (events.drop 1)).expression.Satisfied := by
  refine ⟨_, _, [⟨⟨2⟩, 0⟩, ⟨⟨0⟩, 1⟩, ⟨⟨1⟩, 2⟩, ⟨⟨2⟩, 2.5⟩, ⟨⟨0⟩, 4⟩], rfl, rfl, rfl, ?_⟩
  exact scan_satisfied _ _ _ 1 rfl

end Expression

end TimedPattern
