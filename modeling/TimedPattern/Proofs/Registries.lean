import TimedPattern.Proofs.Compiled
import TimedPattern.Proofs.Renaming

/-!
# Reading in two registries

What a pattern text means does not depend on the names that were met before.
-/

open List (Forall₂)

namespace TimedPattern

/-- The same fault, or two results that belong together. -/
inductive SameResult {ε α β : Type} (R : α → β → Prop) : Except ε α → Except ε β → Prop
  | error (e : ε) : SameResult R (.error e) (.error e)
  | ok {a : α} {b : β} : R a b → SameResult R (.ok a) (.ok b)

theorem SameResult.map {ε α β γ δ : Type} {R : α → β → Prop} {R' : γ → δ → Prop}
    {x : Except ε α} {y : Except ε β} (h : SameResult R x y) {f : α → γ} {g : β → δ}
    (hfg : ∀ {a b}, R a b → R' (f a) (g b)) : SameResult R' (x.map f) (y.map g) := by
  cases h with
  | error e => exact .error e
  | ok hab => exact .ok (hfg hab)

theorem SameResult.map_eq {ε α β γ : Type} {R : α → β → Prop} {x : Except ε α} {y : Except ε β}
    (h : SameResult R x y) {f : α → γ} {g : β → γ} (hfg : ∀ {a b}, R a b → f a = g b) :
    x.map f = y.map g := by
  cases h with
  | error e => rfl
  | ok hab => exact congrArg Except.ok (hfg hab)

theorem SameResult.imp {ε α β : Type} {R R' : α → β → Prop} {x : Except ε α} {y : Except ε β}
    (h : SameResult R x y) (hR : ∀ {a b}, R a b → R' a b) : SameResult R' x y := by
  cases h with
  | error e => exact .error e
  | ok hab => exact .ok (hR hab)

namespace Expression

variable {r s : Registry}

theorem Alike.fill {e f : Expression} (h : e.Alike r s f) (d : Defaults)
    (countOpen timeOpen : Bool) :
    (e.fill d countOpen timeOpen).Alike r s (f.fill d countOpen timeOpen) := by
  induction h generalizing countOpen timeOpen with
  | leaf t hb hc => exact .leaf _ hb hc
  | conditional op t _ _ ihl ihr => exact .conditional op t (ihl _ _) (ihr _ _)

end Expression

/-! ## Steps -/

structure Operand.Alike (r s : Registry) (o p : Operand) : Prop where
  expression : o.expression.Alike r s p.expression
  position : o.position = p.position

theorem Operand.Alike.mono {r s r' s' : Registry} {o p : Operand} (h : o.Alike r s p)
    (hr : r.names <+: r'.names) (hs : s.names <+: s'.names) : o.Alike r' s' p :=
  ⟨h.expression.mono hr hs, h.position⟩

namespace Expression

variable {r s : Registry}

theorem only_alike {operands others : List Operand}
    (h : Forall₂ (Operand.Alike r s) operands others) :
    SameResult (Alike r s) (only operands) (only others) := by
  have hreverse : Forall₂ (Operand.Alike r s) operands.reverse others.reverse :=
    List.rel_reverse h
  unfold only
  generalize operands.reverse = os, others.reverse = ps at hreverse
  cases hreverse with
  | nil => exact .error _
  | cons hfirst hrest =>
    cases hrest with
    | nil => exact .ok hfirst.expression
    | cons hsecond _ =>
      dsimp only
      rw [hsecond.position]
      exact .error _

theorem build_alike {operands others : List Operand}
    (h : Forall₂ (Operand.Alike r s) operands others) (tokens : List Token) :
    SameResult (Alike (build r operands tokens).2 (build s others tokens).2)
      (build r operands tokens).1 (build s others tokens).1 := by
  -- The operands on both stacks stay alike while both registries grow.
  induction tokens generalizing r s operands others with
  | nil => exact only_alike h
  | cons t rest ih =>
    unfold build
    cases hkind : t.kind with
    | behavior name =>
      dsimp only
      apply ih
      refine .cons ⟨.leaf {} (r.name?_intern name) (s.name?_intern name), rfl⟩ ?_
      exact h.imp fun o p ho => ho.mono (r.names_prefix_intern name) (s.names_prefix_intern name)
    | operator op =>
      cases h with
      | nil => exact .error _
      | cons hright hbelow =>
        cases hbelow with
        | nil => exact .error _
        | cons hleft hbelow =>
          apply ih
          exact .cons ⟨.conditional op {} hleft.expression hright.expression, hleft.position⟩ hbelow
    | occurrences range =>
      cases h with
      | nil => exact .error _
      | cons htop hbelow =>
        apply ih
        exact .cons ⟨htop.expression.mapTally _, htop.position⟩ hbelow
    | timing range =>
      cases h with
      | nil => exact .error _
      | cons htop hbelow =>
        apply ih
        exact .cons ⟨htop.expression.mapTally _, htop.position⟩ hbelow
    | groupOpen => exact .error _
    | groupClose => exact .error _

theorem ofLexemes_alike (d : Defaults) (r s : Registry) (lexemes : List Lexeme) :
    SameResult (Alike (ofLexemes d r lexemes).2 (ofLexemes d s lexemes).2)
      (ofLexemes d r lexemes).1 (ofLexemes d s lexemes).1 := by
  unfold ofLexemes
  cases Token.ofLexemes lexemes >>= Token.toPostfix with
  | error e => exact .error e
  | ok tokens =>
    cases tokens with
    | nil => exact .error _
    | cons t tokens => exact (build_alike .nil (t :: tokens)).map fun h => h.fill _ true true

end Expression

/-! ## Patterns -/

namespace Pattern

theorem Alike.mono {r s r' s' : Registry} {p q : Pattern} (h : p.Alike r s q)
    (hr : r.names <+: r'.names) (hs : s.names <+: s'.names) : p.Alike r' s' q :=
  ⟨h.name, h.steps.imp fun _ _ hstep => hstep.mono hr hs⟩

theorem compile_alike (d : Defaults) (r s : Registry) (cuts : List (List Lexeme × Nat)) :
    SameResult (Forall₂ (Expression.Alike (compile d r cuts).2 (compile d s cuts).2))
      (compile d r cuts).1 (compile d s cuts).1 := by
  induction cuts generalizing r s with
  | nil => exact .ok .nil
  | cons step rest ih =>
    obtain ⟨lexemes, stop⟩ := step
    cases lexemes with
    | nil => exact .error _
    | cons l lexemes =>
      unfold compile
      have hstep := Expression.ofLexemes_alike d r s (l :: lexemes)
      generalize Expression.ofLexemes d r (l :: lexemes) = x at hstep
      generalize Expression.ofLexemes d s (l :: lexemes) = y at hstep
      obtain ⟨x, r'⟩ := x
      obtain ⟨y, s'⟩ := y
      cases hstep with
      | error e => exact .error e
      | ok hstep =>
        apply (ih r' s').map
        intro steps others hsteps
        exact .cons (hstep.mono (names_compile d r' rest) (names_compile d s' rest)) hsteps

theorem names_parse (d : Defaults) (registry : Registry) (text : String) :
    registry.names <+: (parse d registry text).2.names := by
  unfold parse
  dsimp only
  split
  · exact List.prefix_refl _
  · exact names_compile d registry _
  · exact List.prefix_refl _

theorem parse_alike (d : Defaults) (r s : Registry) (text : String) :
    SameResult (Pattern.Alike (parse d r text).2 (parse d s text).2)
      (parse d r text).1 (parse d s text).1 := by
  unfold parse
  dsimp only
  split
  · exact .error _
  · exact (compile_alike d r s _).map fun h => ⟨rfl, h⟩
  · exact .error _

/-- A pattern is what some text says, in whatever registry the text is read. -/
def Says (p : Pattern) (r : Registry) (text : String) : Prop :=
  ∀ s, SameResult (Pattern.Alike r (parse {} s text).2) (.ok p) (parse {} s text).1

theorem Says.mono {r r' : Registry} {p : Pattern} {text : String} (h : p.Says r text)
    (hnames : r.names <+: r'.names) : p.Says r' text :=
  fun s => (h s).imp fun halike => halike.mono hnames (List.prefix_refl _)

end Pattern

end TimedPattern
