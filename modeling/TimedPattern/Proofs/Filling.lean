import TimedPattern.Proofs.Arena.Shape

/-!
# Which leaves get the defaults

A leaf gets the default of a kind if no node on the way to it, itself included, limits that kind.
-/

namespace TimedPattern

namespace Expression

/-- Some node on the way that a path describes, from the root to its end, has a limit of a kind. -/
def Limited (limit : Tally → Option Range) (path : List Side) (e : Expression) : Prop :=
  ∃ above ∈ path.inits, ∃ node ∈ e.below? above, (limit node.tally).isSome

instance (limit : Tally → Option Range) (path : List Side) (e : Expression) :
    Decidable (e.Limited limit path) :=
  inferInstanceAs (Decidable (∃ above ∈ path.inits, ∃ node ∈ e.below? above, _))

/-- What filling in the defaults makes of a tree, path by path. -/
structure Filling (d : Defaults) (e filled : Expression) : Prop where
  leaves : ∀ path behavior name t, e.below? path = some (leaf behavior name t) →
    filled.below? path = some (leaf behavior name
      { t with
        occurrences :=
          if e.Limited Tally.occurrences path then t.occurrences else some d.occurrences
        timing := if e.Limited Tally.timing path then t.timing else some d.timing })
  conditionals : ∀ path op left right t, e.below? path = some (conditional op left right t) →
    ∃ left' right', filled.below? path = some (conditional op left' right' t)
  nowhere : ∀ path, e.below? path = none → filled.below? path = none
  limited : ∀ path behavior name t, filled.below? path = some (leaf behavior name t) →
    filled.Limited Tally.occurrences path ∧ filled.Limited Tally.timing path

/-! ## Limits on the way -/

section Limits

variable (limit : Tally → Option Range) (path : List Side) (op : Operator)
  (left right : Expression) (t : Tally)

theorem limited_nil (e : Expression) : e.Limited limit [] ↔ (limit e.tally).isSome := by
  simp [Limited, below?]

theorem limited_left :
    (conditional op left right t).Limited limit (.left :: path) ↔
      (limit t).isSome ∨ left.Limited limit path := by
  simp [Limited, below?, tally]

theorem limited_right :
    (conditional op left right t).Limited limit (.right :: path) ↔
      (limit t).isSome ∨ right.Limited limit path := by
  simp [Limited, below?, tally]

end Limits

/-! ## Path by path -/

section Paths

variable {d : Defaults} {countOpen timeOpen : Bool} {e : Expression} {path : List Side}

theorem below?_fill_leaf {behavior : BehaviorId} {name : String} {t : Tally}
    (h : e.below? path = some (leaf behavior name t)) :
    (e.fill d countOpen timeOpen).below? path = some (leaf behavior name
      { t with
        occurrences :=
          if countOpen = true ∧ ¬ e.Limited Tally.occurrences path then some d.occurrences
          else t.occurrences
        timing :=
          if timeOpen = true ∧ ¬ e.Limited Tally.timing path then some d.timing
          else t.timing }) := by
  induction path generalizing e countOpen timeOpen with
  | nil =>
    obtain rfl := Option.some.inj h
    obtain ⟨occurrences, timing, matched⟩ := t
    simp only [limited_nil, tally]
    cases countOpen <;> cases timeOpen <;> cases occurrences <;> cases timing <;> rfl
  | cons side path ih =>
    cases e with
    | leaf => cases side <;> cases h
    | conditional op left right u =>
      cases side with
      | left =>
        rw [fill, below?, ih h]
        simp only [limited_left, not_or]
        cases u.occurrences <;> cases u.timing <;> simp
      | right =>
        rw [fill, below?, ih h]
        simp only [limited_right, not_or]
        cases u.occurrences <;> cases u.timing <;> simp

theorem below?_fill_conditional {op : Operator} {left right : Expression} {t : Tally}
    (h : e.below? path = some (conditional op left right t)) :
    ∃ left' right', (e.fill d countOpen timeOpen).below? path =
      some (conditional op left' right' t) := by
  induction path generalizing e countOpen timeOpen with
  | nil =>
    obtain rfl := Option.some.inj h
    exact ⟨_, _, rfl⟩
  | cons side path ih =>
    cases e with
    | leaf => cases side <;> cases h
    | conditional => cases side <;> exact ih h

theorem below?_fill_none (h : e.below? path = none) :
    (e.fill d countOpen timeOpen).below? path = none := by
  induction path generalizing e countOpen timeOpen with
  | nil => cases h
  | cons side path ih =>
    cases e with
    | leaf => cases side <;> rfl
    | conditional => cases side <;> exact ih h

theorem limited_fill {behavior : BehaviorId} {name : String} {t : Tally}
    (h : (e.fill d countOpen timeOpen).below? path = some (leaf behavior name t)) :
    (countOpen = true → (e.fill d countOpen timeOpen).Limited Tally.occurrences path) ∧
      (timeOpen = true → (e.fill d countOpen timeOpen).Limited Tally.timing path) := by
  induction path generalizing e countOpen timeOpen with
  | nil =>
    simp only [limited_nil]
    cases e with
    | conditional => cases h
    | leaf behavior' name' u =>
      obtain ⟨occurrences, timing, matched⟩ := u
      cases countOpen <;> cases timeOpen <;> cases occurrences <;> cases timing <;>
        simp [fill, tally, Tally.limitOccurrences, Tally.limitTiming]
  | cons side path ih =>
    cases e with
    | leaf => cases side <;> cases h
    | conditional op left right u =>
      cases side with
      | left =>
        obtain ⟨hcount, htime⟩ := ih h
        simp only [fill, limited_left]
        cases ho : u.occurrences <;> cases ht : u.timing <;> simp_all
      | right =>
        obtain ⟨hcount, htime⟩ := ih h
        simp only [fill, limited_right]
        cases ho : u.occurrences <;> cases ht : u.timing <;> simp_all

theorem filling_fill (d : Defaults) (e : Expression) : Filling d e (e.fill d true true) where
  leaves path behavior name t h := by
    rw [below?_fill_leaf h]
    simp only [true_and, ite_not]
  conditionals _ _ _ _ _ h := below?_fill_conditional h
  nowhere _ h := below?_fill_none h
  limited _ _ _ _ h := (limited_fill h).imp (· rfl) (· rfl)

end Paths

/-! ## The governing window -/

theorem exists_ceiling_fill (d : Defaults) (countOpen : Bool) (e : Expression) :
    ∃ c, (e.fill d countOpen true).ceiling = some c := by
  induction e generalizing countOpen with
  | leaf behavior name t =>
    obtain ⟨occurrences, timing, matched⟩ := t
    cases countOpen <;> cases timing <;> exact ⟨_, rfl⟩
  | conditional op left right t ihl ihr =>
    cases ht : t.timing with
    | some window => exact ⟨window.maximum, by simp [fill, ceiling, ht]⟩
    | none =>
      obtain ⟨l, hl⟩ := ihl (countOpen && t.occurrences.isNone)
      obtain ⟨r, hr⟩ := ihr (countOpen && t.occurrences.isNone)
      exact ⟨later l r, by simp [fill, ceiling, ht, hl, hr]⟩

theorem exists_ceiling_ofPostfix {d : Defaults} {registry : Registry} {tokens : List Token}
    {step : Expression} (h : (ofPostfix d registry tokens).1 = .ok step) :
    ∃ c, step.ceiling = some c := by
  obtain ⟨tree, -, rfl⟩ := exists_of_map_eq_ok h
  exact exists_ceiling_fill _ true tree

/-- Going through the list of nodes fills in what the limits on the way to each leaf leave open, and
nothing else. So a compiled step has a window that governs it, whatever it has matched and whichever
way it is read. -/
theorem fill_reaches_open_leaves (d : Defaults) :
    (∀ e, Arena.fill d e.nodes e.root = some (e.fill d true true).nodes ∧
      Filling d e (e.fill d true true)) ∧
    ∀ registry tokens step, (ofPostfix d registry tokens).1 = .ok step →
      ∃ c, ∀ now : Expression, now.reset = step.reset → now.ceiling = some c ∧
        Arena.visit Arena.readCeiling now.nodes now.nodes.length now.root = some (some c) := by
  refine ⟨fun e => ⟨Arena.fill_nodes d e, filling_fill d e⟩, fun registry tokens step h => ?_⟩
  obtain ⟨c, hc⟩ := exists_ceiling_ofPostfix h
  refine ⟨c, fun now hnow => ?_⟩
  have hsame : now.ceiling = some c := by rw [← ceiling_reset, hnow, ceiling_reset, hc]
  exact ⟨hsame, hsame ▸ (Arena.walks_nodes now).ceiling⟩

end Expression

end TimedPattern
