/-!
# Symbols

Region brackets always mean something by themselves, flags only inside a region, and an escaped
character never does.
-/

namespace TimedPattern

inductive Symbol where
  | groupOpen
  | groupClose
  /-- Opens a region that limits how often something occurs. -/
  | countOpen
  | countClose
  /-- Opens a region that limits the time something may take. -/
  | timingOpen
  | timingClose
  | and
  | or
  /-- Reserved, without a meaning so far. -/
  | except
  /-- Stands between two steps. -/
  | next
  /-- Stands between the steps and the name of the pattern. -/
  | result
  /-- One character of a region. -/
  | flag (c : Char)
  deriving DecidableEq, Repr

namespace Symbol

def spelling : Symbol → List Char
  | groupOpen => ['(']
  | groupClose => [')']
  | countOpen => ['[']
  | countClose => [']']
  | timingOpen => ['\x7b']
  | timingClose => ['\x7d']
  | and => ['&']
  | or => ['|']
  | except => ['^']
  | next => ['-', '>']
  | result => ['=', '>']
  | flag c => [c]

def text (s : Symbol) : String := String.ofList s.spelling

/-- The character that takes its meaning away from the next one. -/
def escape : Char := '\\'

def flags : List Char := ['x', ':', '+', '-', '?', '*', '!', 's']

def regionBracket? : Char → Option Symbol
  | '[' => some countOpen
  | ']' => some countClose
  | '\x7b' => some timingOpen
  | '\x7d' => some timingClose
  | _ => none

def separator? : Char → Option Symbol
  | '(' => some groupOpen
  | ')' => some groupClose
  | '|' => some or
  | '&' => some and
  | '^' => some except
  | _ => none

/-- The symbol that one character is, inside or outside a region. -/
def ofChar? (inRegion : Bool) (c : Char) : Option Symbol :=
  match regionBracket? c with
  | some s => some s
  | none => if inRegion ∧ c ∈ flags then some (flag c) else separator? c

/-- The symbol that two characters are together. -/
def ofPair? : Char → Char → Option Symbol
  | '-', '>' => some next
  | '=', '>' => some result
  | _, _ => none

/-- Whether text after the symbol stands inside a region. Any region bracket settles it, matched or
not, and no other symbol changes it. -/
def regionAfter (inRegion : Bool) : Symbol → Bool
  | countOpen | timingOpen => true
  | countClose | timingClose => false
  | _ => inRegion

end Symbol

end TimedPattern
