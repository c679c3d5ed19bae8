import TimedPattern.PatternError

/-!
# Operands first

Operators wait on a stack until one that binds less tightly comes along or their group ends. Both
operators group to the left.
-/

namespace TimedPattern.Token

/-- The waiting operators of the innermost group, and what lies below its bracket. None without an
open group. -/
def endGroup? (waiting : List Token) : Option (List Token × List Token) :=
  match waiting.span (! ·.isGroupOpen) with
  | (group, _ :: rest) => some (group, rest)
  | (_, []) => none

/-- The waiting operators that go before an operator of some precedence, and those that stay. -/
def release (precedence : Nat) (waiting : List Token) : List Token × List Token :=
  waiting.span fun top => ! top.isGroupOpen && precedence ≤ top.precedence

/-- At the end nothing may wait but operators. -/
def drain : List Token → Except PatternError (List Token)
  | [] => .ok []
  | top :: rest =>
    if top.isGroupOpen then .error ⟨.groupNotClosed, top.position⟩ else (drain rest).map (top :: ·)

/-- Orders the tokens, given the operators that wait and whether an operand was just complete. -/
def order (waiting : List Token) (afterOperand : Bool) :
    List Token → Except PatternError (List Token)
  | [] => drain waiting
  | t :: rest =>
    match t.kind with
    | .behavior _ => (order waiting true rest).map (t :: ·)
    | .groupOpen => order (t :: waiting) false rest
    | .groupClose =>
      match endGroup? waiting with
      | some (group, below) => (order below true rest).map (group ++ ·)
      | none => .error ⟨.groupNotOpened, t.position⟩
    | .operator _ =>
      let (before, staying) := release t.precedence waiting
      (order (t :: staying) false rest).map (before ++ ·)
    | .occurrences _ | .timing _ =>
      if afterOperand then
        let (before, staying) := release t.precedence waiting
        (order (t :: staying) true rest).map (before ++ ·)
      else .error ⟨.modifierWithoutOperand, t.position⟩

/-- The tokens without brackets, operators and modifiers behind their operands. -/
def toPostfix (tokens : List Token) : Except PatternError (List Token) := order [] false tokens

end TimedPattern.Token
