import TimedPattern.Attempt
import TimedPattern.Expression
import TimedPattern.Outcome

/-!
# Feeding an event

Each node first asks where the event lies in its window. Before the window nothing happens, and
after it the node is completed or canceled. Inside it the event is matched, left before right.
-/

namespace TimedPattern

namespace Operator

def join : Operator → Outcome → Outcome → Outcome
  | and => Outcome.worse
  | or => Outcome.better

theorem join_comm (op : Operator) (a b : Outcome) : op.join a b = op.join b a := by
  cases op with
  | and => exact a.worse_comm b
  | or => exact a.better_comm b

end Operator

namespace Tally

def meets (t : Tally) (range : Range) : Bool := range.containsCount t.count

/-- Takes in what the event did: a match counts and starts the clock, and what completed below hands
over the indices of this node too. -/
def record (t : Tally) (a : Attempt) (index : Nat) (time : Float) : Outcome → Tally × Attempt
  | .stepped => ({ t with matched := t.matched.insert index }, a.start time)
  | .completed => (t, a.collect t.matched)
  | _ => (t, a)

/-- Refines an outcome by the count. Too many matches are forgotten. -/
def judge (t : Tally) (o : Outcome) : Outcome × Tally :=
  match t.occurrences with
  | none => (o, t)
  | some range =>
    if Float.ofNat t.count < range.minimum then
      (if o = .stepped then .stepped else .notEnoughOccurrences, t)
    else if range.maximum < Float.ofNat t.count then (.canceled, t.forget)
    else (if o = .stepped then .steppedAndTechnicallyComplete else .technicallyComplete, t)

/-- Records and judges. Unless something matched or completed, there must be a baseline by now. -/
def settle (t : Tally) (a : Attempt) (index : Nat) (time : Float) (o : Outcome) :
    Outcome × Tally × Attempt :=
  let (t, a) := t.record a index time o
  if o ≠ .stepped ∧ o ≠ .completed ∧ a.baseline.isNone then (.invalid, t, a)
  else
    let (o, t) := t.judge o
    (o, t, a)

end Tally

structure Fed where
  outcome : Outcome
  expression : Expression
  attempt : Attempt

namespace Expression

/-- Whether the tree has what it asks for. A node with a count needs it in range. Without a count a
leaf is never satisfied, and a conditional asks its sides. -/
def isSatisfied : Expression → Bool
  | leaf _ _ t => t.occurrences.any t.meets
  | conditional op left right t =>
    match t.occurrences, op with
    | some range, _ => t.meets range
    | none, .and => left.isSatisfied && right.isSatisfied
    | none, .or => left.isSatisfied || right.isSatisfied

/-- The window has passed: the tree hands over its indices or forgets those of its root. -/
def expire (e : Expression) (a : Attempt) : Fed :=
  if e.isSatisfied then ⟨.completed, e, a.collect e.indices⟩
  else ⟨.canceled, e.mapTally Tally.forget, a⟩

def feed (index : Nat) (event : Event) : Expression → Attempt → Fed
  | leaf behavior name t, a =>
    match a.phase event.time t.timing with
    | .early => ⟨.beforeTime, leaf behavior name t, a⟩
    | .late => (leaf behavior name t).expire a
    | .inside =>
      let o := if behavior = event.behavior then .stepped else .skipped
      let (o, t, a) := t.settle a index event.time o
      ⟨o, leaf behavior name t, a⟩
  | conditional op left right t, a =>
    match a.phase event.time t.timing with
    | .early => ⟨.beforeTime, conditional op left right t, a⟩
    | .late => (conditional op left right t).expire a
    | .inside =>
      let l := left.feed index event a
      let r := right.feed index event l.attempt
      let (o, t, a) := t.settle r.attempt index event.time (op.join l.outcome r.outcome)
      ⟨o, conditional op l.expression r.expression t, a⟩

end Expression

end TimedPattern
