import TimedPattern.Expression
import TimedPattern.Symbol

/-!
# Expressions as text

Every conditional stands in brackets, and what would be a symbol in a name is escaped.
-/

namespace TimedPattern

/-- The characters that are symbols wherever they stand, and the escape. -/
def reserved : List Char := ['\\', '(', ')', '[', ']', '\x7b', '\x7d', '&', '|', '^']

/-- Whether a character would be read as the start of a symbol, given what follows it. -/
def needsEscape (c : Char) (rest : List Char) : Bool :=
  c ∈ reserved || (c ∈ ['-', '='] && rest.head? = some '>')

def writeName : List Char → List Char
  | [] => []
  | c :: rest =>
    if needsEscape c rest then Symbol.escape :: c :: writeName rest else c :: writeName rest

namespace Tally

/-- The limits of a node, time first. -/
def write (t : Tally) : List Char :=
  (match t.timing with
    | some range => '\x7b' :: 's' :: range.write ++ ['\x7d']
    | none => []) ++
  (match t.occurrences with
    | some range => '[' :: range.write ++ [']']
    | none => [])

end Tally

namespace Expression

def write : Expression → List Char
  | leaf _ name t => writeName name.toList ++ t.write
  | conditional op left right t =>
    '(' :: left.write ++ ' ' :: op.text.toList ++ ' ' :: right.write ++ ')' :: t.write

def text (e : Expression) : String := String.ofList e.write

end Expression

end TimedPattern
