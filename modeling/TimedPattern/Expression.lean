import TimedPattern.Event
import TimedPattern.IndexSet
import TimedPattern.Token

/-!
# Expressions

The tree of one step. Every node may limit how often it occurs and how much time it takes, and holds
the indices that it has matched. `nodes` lists a tree in the order in which its nodes are made.
-/

namespace TimedPattern

/-- The limits of a node and the events that it has matched so far. -/
structure Tally where
  occurrences : Option Range := none
  timing : Option Range := none
  matched : IndexSet := ∅
  deriving BEq

namespace Tally

/-- Limits the count, unless it is limited already. -/
def limitOccurrences (t : Tally) (range : Range) : Tally :=
  { t with occurrences := t.occurrences <|> some range }

/-- Limits the time, unless it is limited already. -/
def limitTiming (t : Tally) (range : Range) : Tally :=
  { t with timing := t.timing <|> some range }

def forget (t : Tally) : Tally := { t with matched := ∅ }

def count (t : Tally) : Nat := t.matched.size

end Tally

inductive Expression where
  | leaf (behavior : BehaviorId) (name : String) (tally : Tally)
  | conditional (op : Operator) (left right : Expression) (tally : Tally)
  deriving BEq

/-- A node of a listed tree. Its children are given by their places in the list. -/
inductive Node where
  | leaf (behavior : BehaviorId) (name : String) (tally : Tally)
  | conditional (op : Operator) (left right : Nat) (tally : Tally)
  deriving BEq

namespace Node

def tally : Node → Tally
  | leaf _ _ t => t
  | conditional _ _ _ t => t

end Node

namespace Expression

def tally : Expression → Tally
  | leaf _ _ t => t
  | conditional _ _ _ t => t

def mapTally (f : Tally → Tally) : Expression → Expression
  | leaf behavior name t => leaf behavior name (f t)
  | conditional op left right t => conditional op left right (f t)

def reset : Expression → Expression
  | leaf behavior name t => leaf behavior name t.forget
  | conditional op left right t => conditional op left.reset right.reset t.forget

/-- The indices that any node of the tree has matched. -/
def indices : Expression → IndexSet
  | leaf _ _ t => t.matched
  | conditional _ left right t => t.matched ∪ left.indices ∪ right.indices

/-- The upper end of the window that governs the tree: the window of the root, or else the widest
one below it. -/
def ceiling : Expression → Option Float
  | leaf _ _ t => t.timing.map Range.maximum
  | conditional _ left right t =>
    match t.timing, left.ceiling, right.ceiling with
    | some window, _, _ => some window.maximum
    | none, some l, some r => some (later l r)
    | none, l, r => l <|> r

def size : Expression → Nat
  | leaf .. => 1
  | conditional _ left right _ => left.size + right.size + 1

/-- The nodes of the tree, numbered from `first`, left before right and both before their parent. -/
def nodesFrom (first : Nat) : Expression → List Node
  | leaf behavior name t => [.leaf behavior name t]
  | conditional op left right t =>
    left.nodesFrom first ++ right.nodesFrom (first + left.size) ++
      [.conditional op (first + left.size - 1) (first + left.size + right.size - 1) t]

def nodes (e : Expression) : List Node := e.nodesFrom 0

def root (e : Expression) : Nat := e.size - 1

@[simp] theorem length_nodesFrom (first : Nat) (e : Expression) :
    (e.nodesFrom first).length = e.size := by
  induction e generalizing first with
  | leaf => rfl
  | conditional op left right t ihl ihr => simp [nodesFrom, size, ihl, ihr, Nat.add_assoc]

@[simp] theorem size_reset (e : Expression) : e.reset.size = e.size := by
  induction e with
  | leaf => rfl
  | conditional op left right t ihl ihr => simp [reset, size, ihl, ihr]

@[simp] theorem reset_reset (e : Expression) : e.reset.reset = e.reset := by
  induction e with
  | leaf => rfl
  | conditional op left right t ihl ihr => simp [reset, ihl, ihr, Tally.forget]

@[simp] theorem not_mem_indices_reset (e : Expression) (i : Nat) : ¬ i ∈ e.reset.indices := by
  induction e with
  | leaf => simp [reset, indices, Tally.forget]
  | conditional op left right t ihl ihr => simp [reset, indices, Tally.forget, ihl, ihr]

end Expression

end TimedPattern
