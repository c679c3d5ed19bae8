import TimedPattern.PatternError

/-!
# Regions

A region holds a range: `n`, `n:m`, `n:` or `:m`. Counts have shorter forms besides.
-/

namespace TimedPattern

/-- What a region limits. -/
inductive RegionKind where
  | occurrences
  | timing
  deriving DecidableEq, Repr

namespace RegionKind

/-- The bracket that ends the region. -/
def close : RegionKind → Symbol
  | occurrences => .countClose
  | timing => .timingClose

end RegionKind

/-- A region that has been opened, with the items read so far. -/
structure Region where
  kind : RegionKind
  position : Nat
  items : List RegionItem
  deriving Repr

namespace Region

/-- The range that items spell, if they have the shape of one. -/
def range? : List RegionItem → Option (Except RangeError Range)
  | [.number n] => some (Range.exactly n)
  | [.number n, .flag ':', .number m] => some (Range.between n m)
  | [.number n, .flag ':'] => some (Range.atLeast n)
  | [.flag ':', .number m] => some (Range.atMost m)
  | _ => none

/-- Takes away an `x` in front or, failing that, at the end: `[2x]` and `[x2]` mean `[2]`. -/
def withoutTimes : List RegionItem → List RegionItem
  | .flag 'x' :: items => items
  | items =>
    match items.getLast? with
    | some (.flag 'x') => items.dropLast
    | _ => items

/-- The count that items spell, if they have the shape of one. -/
def count? : List RegionItem → Option (Except RangeError Range)
  | [.flag '!'] => some (.ok .zero)
  | [.flag '?'] => some (Range.between 0 1)
  | [.flag '*'] => some (Range.atLeast 0)
  | [.flag '+'] => some (Range.atLeast 1)
  | [.number n, .flag '+'] => some (Range.atLeast n)
  | [.flag '-'] => some (Range.atMost 1)
  | [.number n, .flag '-'] => some (Range.atMost n)
  | items => range? items

/-- Places the error of a range. -/
def place (position : Nat) : Except RangeError Range → Except PatternError Range
  | .error e => .error ⟨.badRange e, position⟩
  | .ok range => .ok range

def readOccurrences (items : List RegionItem) (position : Nat) : Except PatternError Range :=
  match count? (withoutTimes items) with
  | some range => place position range
  | none => .error ⟨.unknownOccurrences items, position⟩

/-- A timing region starts with `s`. A single number means "within". -/
def readTiming (items : List RegionItem) (position : Nat) : Except PatternError Range :=
  match items with
  | .flag 's' :: rest =>
    match range? rest with
    | some range => (place position range).map Range.asWindow
    | none => .error ⟨.timingWithoutRange items, position⟩
  | _ => .error ⟨.timingWithoutMark items, position⟩

/-- The token of a region that has been closed. -/
def token (r : Region) : Except PatternError Token :=
  match r.kind with
  | .occurrences =>
    (readOccurrences r.items r.position).map fun range => ⟨.occurrences range, r.position⟩
  | .timing => (readTiming r.items r.position).map fun range => ⟨.timing range, r.position⟩

end Region

end TimedPattern
