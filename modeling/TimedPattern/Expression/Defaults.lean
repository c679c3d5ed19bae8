import TimedPattern.Expression

/-!
# Default limits

A limit on a node keeps the default of its kind away from everything below that node.
-/

namespace TimedPattern

/-- The limits of leaves that have none: once and within a second, unless chosen otherwise. -/
structure Defaults where
  occurrences : Range := .one
  timing : Range := .unit

namespace Expression

/-- Fills in the limits of the kinds that are still open. -/
def fill (d : Defaults) (countOpen timeOpen : Bool) : Expression → Expression
  | leaf behavior name t =>
    let t := if countOpen then t.limitOccurrences d.occurrences else t
    leaf behavior name (if timeOpen then t.limitTiming d.timing else t)
  | conditional op left right t =>
    let countOpen := countOpen && t.occurrences.isNone
    let timeOpen := timeOpen && t.timing.isNone
    conditional op (left.fill d countOpen timeOpen) (right.fill d countOpen timeOpen) t

/-- Fills in both defaults. A default time that is a single moment means "within". -/
def withDefaults (e : Expression) (d : Defaults) : Expression :=
  e.fill { d with timing := d.timing.asWindow } true true

end Expression

end TimedPattern
