/-!
# Decimal numerals

A numeral is a whole number of digits and a power of ten. `toFloat` rounds it to the nearest float.
-/

namespace TimedPattern.Decimal

/-- The number `digits * 10 ^ exponent`. -/
structure Numeral where
  digits : Nat
  exponent : Int
  deriving DecidableEq, Repr

def infinity : Float := 1 / 0

def notANumber : Float := 0 / 0

namespace Numeral

/-- A power of ten that the numeral, unless it is zero, stays below by at most a factor of ten. -/
def magnitude (n : Numeral) : Int := (Nat.toDigits 10 n.digits).length + n.exponent

/-- The nearest float, an even mantissa winning a tie. Beyond `10 ^ 310` every numeral rounds to
infinity and below `10 ^ -330` to zero, so no greater power of ten is ever computed. -/
def toFloat (n : Numeral) : Float :=
  if n.digits = 0 ∨ n.magnitude < -330 then 0
  else if 310 < n.magnitude then infinity
  else Float.ofModel (Float.Model.ofScientific n.digits n.exponent)

/-- One or more digits and nothing else. -/
def natural? (text : List Char) : Option Nat :=
  if text ≠ [] ∧ text.all Char.isDigit then some (Nat.ofDigitChars 10 text 0) else none

/-- The digits of an exponent, with at most one sign in front. -/
def signed? : List Char → Option Int
  | '-' :: text => (natural? text).map fun n => -(n : Int)
  | '+' :: text => (natural? text).map Int.ofNat
  | text => (natural? text).map Int.ofNat

/-- What follows the digits: nothing, or `e` and a whole number. -/
def exponent? : List Char → Option Int
  | [] => some 0
  | mark :: text => if mark = 'e' ∨ mark = 'E' then signed? text else none

/-- The digits after the point, if there is a point, and what follows them. -/
def fraction : List Char → List Char × List Char
  | '.' :: text => (text.takeWhile Char.isDigit, text.dropWhile Char.isDigit)
  | text => ([], text)

/-- Reads digits with at most one point and at least one digit, then an optional exponent. -/
def ofChars? (text : List Char) : Option Numeral :=
  let whole := text.takeWhile Char.isDigit
  let (part, rest) := fraction (text.dropWhile Char.isDigit)
  match natural? (whole ++ part), exponent? rest with
  | some digits, some exponent => some ⟨digits, exponent - part.length⟩
  | _, _ => none

end Numeral

/-- Reads a number without its sign. The words may be written in either case. -/
def readMagnitude? (text : List Char) : Option Float :=
  let word := text.map Char.toLower
  if word = ['i', 'n', 'f'] ∨ word = ['i', 'n', 'f', 'i', 'n', 'i', 't', 'y'] then some infinity
  else if word = ['n', 'a', 'n'] then some notANumber
  else (Numeral.ofChars? text).map Numeral.toFloat

/-- Reads a number: an optional sign, then a numeral or a word. -/
def read? : List Char → Option Float
  | '-' :: text => (readMagnitude? text).map (- ·)
  | '+' :: text => readMagnitude? text
  | text => readMagnitude? text

end TimedPattern.Decimal
