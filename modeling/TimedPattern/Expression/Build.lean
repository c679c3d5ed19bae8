import TimedPattern.Expression.Defaults
import TimedPattern.Token.Classify
import TimedPattern.Token.Postfix

/-!
# Expressions from tokens

Tokens with their operands first are put together on a stack. Names are interned as they are met, so
those in front of a fault stay in the registry.
-/

namespace TimedPattern

/-- A tree on the stack and the place of its first token. -/
structure Operand where
  expression : Expression
  position : Nat

namespace Expression

/-- In the end one operand must be left. Of several, the second one lacks an operator before it. -/
def only (operands : List Operand) : Except PatternError Expression :=
  match operands.reverse with
  | [] => .error ⟨.noBehavior, 0⟩
  | [operand] => .ok operand.expression
  | _ :: second :: _ => .error ⟨.missingOperator, second.position⟩

/-- Puts tokens together, given the operands so far, the latest first. -/
def build (registry : Registry) (operands : List Operand) :
    List Token → Except PatternError Expression × Registry
  | [] => (only operands, registry)
  | t :: rest =>
    match t.kind, operands with
    | .behavior name, _ =>
      let (id, registry) := registry.intern name
      build registry (⟨.leaf id name {}, t.position⟩ :: operands) rest
    | .operator op, right :: left :: below =>
      let joined := .conditional op left.expression right.expression {}
      build registry (⟨joined, left.position⟩ :: below) rest
    | .operator op, _ => (.error ⟨.operatorWithoutOperands op, t.position⟩, registry)
    | .occurrences range, top :: below =>
      let limited := top.expression.mapTally (·.limitOccurrences range)
      build registry (⟨limited, top.position⟩ :: below) rest
    | .occurrences _, [] => (.error ⟨.occurrencesWithoutOperand, t.position⟩, registry)
    | .timing range, top :: below =>
      let limited := top.expression.mapTally (·.limitTiming range)
      build registry (⟨limited, top.position⟩ :: below) rest
    | .timing _, [] => (.error ⟨.timingWithoutOperand, t.position⟩, registry)
    | .groupOpen, _ | .groupClose, _ => (.error ⟨.groupLeftOver, t.position⟩, registry)

theorem names_build (registry : Registry) (operands : List Operand) (tokens : List Token) :
    registry.names <+: (build registry operands tokens).2.names := by
  fun_induction build registry operands tokens with
  | case2 registry operands t rest name hkind id grown hintern ih =>
    have hgrown := registry.names_prefix_intern name
    rw [hintern] at hgrown
    exact hgrown.trans ih
  | case3 => assumption
  | case5 => assumption
  | case7 => assumption
  | _ => exact List.prefix_refl _

/-- The expression of tokens that have their operands first, with the defaults filled in. -/
def ofPostfix (d : Defaults) (registry : Registry) (tokens : List Token) :
    Except PatternError Expression × Registry :=
  let (result, registry) := build registry [] tokens
  (result.map (·.withDefaults d), registry)

def ofLexemes (d : Defaults) (registry : Registry) (lexemes : List Lexeme) :
    Except PatternError Expression × Registry :=
  match Token.ofLexemes lexemes >>= Token.toPostfix with
  | .error e => (.error e, registry)
  | .ok [] => (.error ⟨.noBehavior, (lexemes.head?.map Lexeme.position).getD 0⟩, registry)
  | .ok tokens => ofPostfix d registry tokens

end Expression

end TimedPattern
