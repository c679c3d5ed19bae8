import TimedPattern.Range

/-! # Tokens -/

namespace TimedPattern

inductive Operator where
  /-- Both sides must be satisfied. -/
  | and
  /-- Either side is enough. -/
  | or
  deriving DecidableEq, Repr

namespace Operator

def text : Operator → String
  | and => "&"
  | or => "|"

end Operator

inductive TokenKind where
  | behavior (name : String)
  | groupOpen
  | groupClose
  | operator (op : Operator)
  /-- How often the operand in front must occur. -/
  | occurrences (range : Range)
  /-- How much time the operand in front may take. -/
  | timing (range : Range)

namespace TokenKind

/-- How tightly a token binds. Modifiers bind to the operand right in front of them, and `&` binds
before `|`. Operands and brackets do not bind. -/
def precedence : TokenKind → Nat
  | behavior _ | groupOpen | groupClose => 0
  | operator .or => 1
  | operator .and => 2
  | occurrences _ | timing _ => 3

end TokenKind

/-- A token and the byte where it starts. -/
structure Token where
  kind : TokenKind
  position : Nat

namespace Token

def precedence (t : Token) : Nat := t.kind.precedence

def isGroupOpen (t : Token) : Bool :=
  match t.kind with
  | .groupOpen => true
  | _ => false

end Token

end TimedPattern
