import TimedPattern.Proofs.Frame
import TimedPattern.Proofs.Simulation

/-!
# Names in two registries

Matching compares numbers, and a name has another number in another registry.
-/

open List (Forall₂)

namespace TimedPattern

/-- Events that show the same name at the same time. -/
structure Event.Alike (r s : Registry) (x y : Event) : Prop where
  time : x.time = y.time
  behavior : r.name? x.behavior = s.name? y.behavior

/-- The same tree, with the names registered in two registries. -/
inductive Expression.Alike (r s : Registry) : Expression → Expression → Prop
  | leaf {b c : BehaviorId} {name : String} (t : Tally) :
    r.name? b = some name → s.name? c = some name → Alike r s (leaf b name t) (leaf c name t)
  | conditional (op : Operator) {left right left' right' : Expression} (t : Tally) :
    Alike r s left left' → Alike r s right right' →
      Alike r s (conditional op left right t) (conditional op left' right' t)

/-- The same pattern, with the names registered in two registries. -/
structure Pattern.Alike (r s : Registry) (p q : Pattern) : Prop where
  name : p.name = q.name
  steps : Forall₂ (Expression.Alike r s) p.steps q.steps

theorem Event.Alike.shows_iff {r s : Registry} {x y : Event} (h : x.Alike r s y) {b c : BehaviorId}
    {name : String} (hb : r.name? b = some name) (hc : s.name? c = some name) :
    b = x.behavior ↔ c = y.behavior := by
  constructor
  · rintro rfl
    exact Registry.eq_of_name? hc (h.behavior.symm.trans hb)
  · rintro rfl
    exact Registry.eq_of_name? hb (h.behavior.trans hc)

namespace Expression

namespace Alike

variable {r s r' s' : Registry} {e f : Expression}

theorem mono (h : e.Alike r s f) (hr : r.names <+: r'.names) (hs : s.names <+: s'.names) :
    e.Alike r' s' f := by
  induction h with
  | leaf t hb hc =>
    exact .leaf t (Registry.name?_of_prefix hr hb) (Registry.name?_of_prefix hs hc)
  | conditional op t _ _ ihl ihr => exact .conditional op t ihl ihr

theorem tally (h : e.Alike r s f) : e.tally = f.tally := by
  cases h <;> rfl

theorem mapTally (h : e.Alike r s f) (g : Tally → Tally) :
    (e.mapTally g).Alike r s (f.mapTally g) := by
  cases h with
  | leaf t hb hc => exact .leaf (g t) hb hc
  | conditional op t hl hr => exact .conditional op (g t) hl hr

theorem reset (h : e.Alike r s f) : e.reset.Alike r s f.reset := by
  induction h with
  | leaf t hb hc => exact .leaf t.forget hb hc
  | conditional op t _ _ ihl ihr => exact .conditional op t.forget ihl ihr

theorem indices (h : e.Alike r s f) : e.indices = f.indices := by
  induction h with
  | leaf => rfl
  | conditional op t _ _ ihl ihr => simp only [Expression.indices, ihl, ihr]

theorem ceiling (h : e.Alike r s f) : e.ceiling = f.ceiling := by
  induction h with
  | leaf => rfl
  | conditional op t _ _ ihl ihr => simp only [Expression.ceiling, ihl, ihr]

theorem isSatisfied (h : e.Alike r s f) : e.isSatisfied = f.isSatisfied := by
  induction h with
  | leaf => rfl
  | conditional op t _ _ ihl ihr => simp only [Expression.isSatisfied, ihl, ihr]

/-! ## Feeding -/

variable {a : Attempt} {x y : Event} {index : Nat}

theorem expire (h : e.Alike r s f) :
    ∃ o e' f' a', e'.Alike r s f' ∧ e.expire a = ⟨o, e', a'⟩ ∧ f.expire a = ⟨o, f', a'⟩ := by
  unfold Expression.expire
  rw [← h.isSatisfied, ← h.indices]
  split
  · exact ⟨.completed, e, f, _, h, rfl, rfl⟩
  · exact ⟨.canceled, _, _, a, h.mapTally Tally.forget, rfl, rfl⟩

theorem feed (h : e.Alike r s f) (hxy : x.Alike r s y) :
    ∃ o e' f' a', e'.Alike r s f' ∧ e.feed index x a = ⟨o, e', a'⟩ ∧
      f.feed index y a = ⟨o, f', a'⟩ := by
  induction h generalizing a with
  | leaf t hb hc =>
    unfold Expression.feed
    rw [← hxy.time]
    cases a.phase x.time t.timing with
    | early => exact ⟨.beforeTime, _, _, a, .leaf t hb hc, rfl, rfl⟩
    | late => exact (Alike.leaf t hb hc).expire
    | inside =>
      simp only [hxy.shows_iff hb hc]
      exact ⟨_, _, _, _, .leaf _ hb hc, rfl, rfl⟩
  | @conditional op left right left' right' t hl hr ihl ihr =>
    unfold Expression.feed
    rw [← hxy.time]
    cases a.phase x.time t.timing with
    | early => exact ⟨.beforeTime, _, _, a, .conditional op t hl hr, rfl, rfl⟩
    | late => exact (Alike.conditional op t hl hr).expire
    | inside =>
      obtain ⟨ol, le, lf, b, hle, hel, hfl⟩ := @ihl a
      obtain ⟨or, re, rf, c, hre, her, hfr⟩ := @ihr b
      dsimp only
      rw [hel, hfl]
      dsimp only
      rw [her, hfr]
      exact ⟨_, _, _, _, .conditional op _ hle hre, rfl, rfl⟩

end Alike

/-- Two runs on the same names in two registries. -/
def renumbering (r s : Registry) : Simulation where
  tree := Alike r s
  attempt := Eq
  event := Event.Alike r s
  time h := h.time
  indices h := h.indices
  collected h := congrArg Attempt.indices h
  collect u h := congrArg (Attempt.collect · u) h
  handOver := by
    rintro e f a _ time hef rfl
    rw [hef.ceiling]
  outcome := by
    rintro e f a _ x y index hef rfl hxy
    obtain ⟨o, e', f', a', -, he, hf⟩ := hef.feed hxy
    rw [he, hf]
  fed := by
    rintro e f a _ x y index hef rfl hxy
    obtain ⟨o, e', f', a', h, he, hf⟩ := hef.feed hxy
    rw [he, hf]
    exact h
  carried := by
    rintro e f a _ x y index hef rfl hxy
    obtain ⟨o, e', f', a', -, he, hf⟩ := hef.feed hxy
    rw [he, hf]

end Expression

namespace Pattern

theorem Alike.reset {r s : Registry} {p q : Pattern} (h : p.Alike r s q) :
    p.reset.Alike r s q.reset := by
  refine ⟨h.name, ?_⟩
  unfold Pattern.reset
  rw [List.forall₂_map_left_iff, List.forall₂_map_right_iff]
  exact h.steps.imp fun e f => .reset

theorem Alike.findMatches {r s : Registry} {p q : Pattern} (h : p.Alike r s q)
    {xs ys : List Event} (hevents : Forall₂ (Event.Alike r s) xs ys) :
    p.findMatches xs = q.findMatches ys := by
  apply findMatches_congr hevents
  intro index xs ys hevents
  exact Simulation.run (S := Expression.renumbering r s) h.reset.steps rfl hevents

end Pattern

end TimedPattern
