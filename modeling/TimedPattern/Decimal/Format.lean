import TimedPattern.Decimal.Shortest

/-!
# How numbers are written

The sign, then the shortest numeral that reads back, as pattern text and messages have it (`plain`)
or as the notes about a scan do (`trace`).
-/

namespace TimedPattern.Decimal

/-- The choices that the digits leave open. -/
structure Format where
  /-- Whether a number whose leading digit stands at this power of ten has no exponent. -/
  positional : Int → Bool
  /-- Whether a whole number ends in `.0`. -/
  wholePoint : Bool

namespace Format

/-- Never an exponent, and no point after a whole number. -/
def plain : Format := ⟨fun _ => true, false⟩

/-- An exponent from `10 ^ 16` on and below `10 ^ -4`. Whole numbers end in `.0`. -/
def trace : Format := ⟨fun lead => -4 ≤ lead ∧ lead < 16, true⟩

/-- The digits with their point in place: behind, among or before them. -/
def layPositional (f : Format) (digits : List Char) (exponent : Int) : List Char :=
  let point : Int := digits.length + exponent
  if 0 ≤ exponent then
    digits ++ List.replicate exponent.toNat '0' ++ (if f.wholePoint then ['.', '0'] else [])
  else if 0 < point then digits.take point.toNat ++ '.' :: digits.drop point.toNat
  else '0' :: '.' :: List.replicate (-point).toNat '0' ++ digits

/-- One digit, the others after a point, then the exponent. -/
def layScientific (digits : List Char) (lead : Int) : List Char :=
  let tail := digits.drop 1
  digits.take 1 ++ (if tail = [] then [] else '.' :: tail) ++ 'e' :: (toString lead).toList

def lay (f : Format) (n : Numeral) : List Char :=
  let digits := Nat.toDigits 10 n.digits
  let lead : Int := digits.length - 1 + n.exponent
  if f.positional lead then f.layPositional digits n.exponent else layScientific digits lead

end Format

/-- The sign bit, which tells the two zeros apart. -/
def negative (x : Float) : Bool := 0x8000000000000000 ≤ x.toBits.toNat

def writeMagnitude (f : Format) (x : Float) : List Char :=
  if x.isInf then ['i', 'n', 'f']
  else if x == 0 then f.lay ⟨0, 0⟩
  else f.lay (shortest x)

def write (f : Format) (x : Float) : List Char :=
  if x.isNaN then ['N', 'a', 'N']
  else if negative x then '-' :: writeMagnitude f (-x)
  else writeMagnitude f x

/-- The text of a float in pattern text, messages and answers. -/
def text (x : Float) : String := String.ofList (write .plain x)

end TimedPattern.Decimal
