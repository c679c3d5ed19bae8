import TimedPattern.Decimal.Format

/-!
# Ranges

A node of a pattern carries two of them: how often it must occur, and how many seconds may pass.
-/

namespace TimedPattern

/-- The numbers from `minimum` to `maximum`, both included. The maximum may be infinite. Neither
bound is negative, and neither is NaN, since NaN compares with nothing. -/
structure Range where
  minimum : Float
  maximum : Float
  zero_le_minimum : 0 ≤ minimum
  zero_le_maximum : 0 ≤ maximum
  ordered : minimum ≤ maximum

inductive Bound where
  | minimum
  | maximum
  deriving DecidableEq, Repr

namespace Bound

def name : Bound → String
  | minimum => "minimum"
  | maximum => "maximum"

end Bound

/-- Why two numbers do not bound a range. -/
inductive RangeError where
  | notANumber
  | negative (bound : Bound) (value : Float)
  | inverted (minimum maximum : Float)
  deriving Repr

namespace RangeError

def message : RangeError → String
  | notANumber => "range bounds must be numbers"
  | negative bound value =>
    s!"range {bound.name} must be greater than or equal to 0, got {Decimal.text value}"
  | inverted minimum maximum =>
    s!"range maximum {Decimal.text maximum} is below minimum {Decimal.text minimum}"

end RangeError

namespace Range

def zero : Range := ⟨0, 0, by decide, by decide, by decide⟩

def one : Range := ⟨1, 1, by decide, by decide, by decide⟩

def unit : Range := ⟨0, 1, by decide, by decide, by decide⟩

/-- The range between two numbers, if they bound one. The minimum is tested before the maximum. -/
def between (minimum maximum : Float) : Except RangeError Range :=
  if minimum.isNaN ∨ maximum.isNaN then .error .notANumber
  else if hmin : 0 ≤ minimum then
    if hmax : 0 ≤ maximum then
      if h : minimum ≤ maximum then .ok ⟨minimum, maximum, hmin, hmax, h⟩
      else .error (.inverted minimum maximum)
    else .error (.negative .maximum maximum)
  else .error (.negative .minimum minimum)

def exactly (n : Float) : Except RangeError Range := between n n

def atLeast (n : Float) : Except RangeError Range := between n Decimal.infinity

def atMost (n : Float) : Except RangeError Range := between 0 n

/-- Infinite for a range without upper end. -/
def width (r : Range) : Float := r.maximum - r.minimum

def isUnbounded (r : Range) : Bool := r.maximum.isInf

/-- The range as a window of time: a single moment `n` means "within `n`". Zero stays as it is. -/
def asWindow (r : Range) : Range :=
  if r.width == 0 ∧ ¬ r.maximum == 0 then
    ⟨0, r.maximum, by decide, r.zero_le_maximum, r.zero_le_maximum⟩
  else r

@[simp] theorem asWindow_asWindow (r : Range) : r.asWindow.asWindow = r.asWindow := by
  unfold asWindow
  split
  · simp only [ite_self]
  · rfl

def contains (r : Range) (value : Float) : Bool := r.minimum ≤ value ∧ value ≤ r.maximum

def containsCount (r : Range) (count : Nat) : Bool := r.contains (Float.ofNat count)

/-- Two ranges agree if their bounds compare as equal, as the two zeros do. -/
instance : BEq Range := ⟨fun a b => a.minimum == b.minimum && a.maximum == b.maximum⟩

/-- The range as it stands between brackets: `n`, `n:m`, or `n:` without upper end. -/
def write (r : Range) : List Char :=
  if r.isUnbounded then Decimal.write .plain r.minimum ++ [':']
  else if r.minimum == r.maximum then Decimal.write .plain r.minimum
  else Decimal.write .plain r.minimum ++ ':' :: Decimal.write .plain r.maximum

end Range

end TimedPattern
