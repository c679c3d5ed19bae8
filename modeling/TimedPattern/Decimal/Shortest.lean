import TimedPattern.Decimal.Numeral

/-!
# The fewest digits that read back

The search looks at ever finer grids of powers of ten. On each grid only the two neighbours of the
number can be nearest, so they are the only candidates.
-/

namespace TimedPattern.Decimal

/-- The number `mantissa * 2 ^ exponent`. -/
structure Binary where
  mantissa : Nat
  exponent : Int
  deriving DecidableEq, Repr

namespace Binary

/-- The leading bit that a normal float does not write down. The bits below it are its fraction. -/
def hidden : Nat := 0x10000000000000

/-- The exact value of a finite float, without its sign. -/
def ofFloat (x : Float) : Binary :=
  let bits := x.toBits.toNat
  let biased := bits / hidden % 0x800
  let fraction := bits % hidden
  if biased = 0 then ⟨fraction, -1074⟩ else ⟨hidden + fraction, (biased : Int) - 1075⟩

/-- The value over `10 ^ k`, as a numerator and a denominator. -/
def ratio (b : Binary) (k : Int) : Nat × Nat :=
  (b.mantissa * Nat.pow 2 b.exponent.toNat * Nat.pow 10 (-k).toNat,
    Nat.pow 2 (-b.exponent).toNat * Nat.pow 10 k.toNat)

/-- The power of ten of the leading digit. The logarithm to base two gives it or one less, since
`30103 / 100000` is the logarithm of two to base ten up to an error too small to matter here. -/
def leading (b : Binary) : Int :=
  let guess := ((b.mantissa.log2 : Int) + b.exponent) * 30103 / 100000
  let (num, den) := b.ratio (guess + 1)
  if den ≤ num then guess + 1 else guess

/-- The nearest of the two neighbours on the grid of `10 ^ k` that reads back as `x`. The upper one
wins a tie. A carry out of one digit is written as the next power of ten. -/
def onGrid? (b : Binary) (x : Float) (k : Int) : Option Numeral :=
  let (num, den) := b.ratio k
  let low := num / den
  let below : Numeral := ⟨low, k⟩
  let above : Numeral := if low = 9 then ⟨1, k + 1⟩ else ⟨low + 1, k⟩
  let upperNearer := (2 * low + 1) * den ≤ 2 * num
  if above.toFloat == x ∧ (upperNearer ∨ ¬ below.toFloat == x) then some above
  else if below.toFloat == x then some below
  else none

/-- The value itself as a numeral: a half is five tenths. -/
def exact (b : Binary) : Numeral :=
  if 0 ≤ b.exponent then ⟨b.mantissa * Nat.pow 2 b.exponent.toNat, 0⟩
  else ⟨b.mantissa * Nat.pow 5 (-b.exponent).toNat, b.exponent⟩

end Binary

/-- The shortest numeral of a positive finite float. Seventeen digits always suffice. -/
def shortest (x : Float) : Numeral :=
  let b := Binary.ofFloat x
  ((List.range 17).findSome? fun (n : Nat) => b.onGrid? x (b.leading - n)).getD b.exact

end TimedPattern.Decimal
