import TimedPattern.Expression.Build
import TimedPattern.Expression.Feed
import TimedPattern.Expression.Written

/-!
# Expressions in one list

The nodes of a step in the order in which they are made, each naming those below it by their places.
A walk gives nothing if it comes to a place outside of the list or goes too deep.
-/

namespace TimedPattern

namespace Node

/-- Changes the tally of a node. -/
def mapTally (f : Tally → Tally) : Node → Node
  | leaf behavior name t => leaf behavior name (f t)
  | conditional op left right t => conditional op left right (f t)

end Node

/-- A node on the stack, by its place in the list, and the place of its first token. -/
structure Slot where
  node : Nat
  position : Nat

namespace Arena

/-! ## Putting tokens together -/

def only (nodes : List Node) (slots : List Slot) : Except PatternError (List Node × Nat) :=
  match slots.reverse with
  | [] => .error ⟨.noBehavior, 0⟩
  | [slot] => .ok (nodes, slot.node)
  | _ :: second :: _ => .error ⟨.missingOperator, second.position⟩

/-- Puts tokens together, given the nodes made so far and the stack. The result is all nodes, and
the place of the root. -/
def build (registry : Registry) (nodes : List Node) (slots : List Slot) :
    List Token → Except PatternError (List Node × Nat) × Registry
  | [] => (only nodes slots, registry)
  | t :: rest =>
    match t.kind, slots with
    | .behavior name, _ =>
      let (id, registry) := registry.intern name
      build registry (nodes ++ [.leaf id name {}]) (⟨nodes.length, t.position⟩ :: slots) rest
    | .operator op, right :: left :: below =>
      build registry (nodes ++ [.conditional op left.node right.node {}])
        (⟨nodes.length, left.position⟩ :: below) rest
    | .operator op, _ => (.error ⟨.operatorWithoutOperands op, t.position⟩, registry)
    | .occurrences range, top :: below =>
      build registry (nodes.modify top.node (Node.mapTally (·.limitOccurrences range)))
        (top :: below) rest
    | .occurrences _, [] => (.error ⟨.occurrencesWithoutOperand, t.position⟩, registry)
    | .timing range, top :: below =>
      build registry (nodes.modify top.node (Node.mapTally (·.limitTiming range)))
        (top :: below) rest
    | .timing _, [] => (.error ⟨.timingWithoutOperand, t.position⟩, registry)
    | .groupOpen, _ | .groupClose, _ => (.error ⟨.groupLeftOver, t.position⟩, registry)

/-! ## Reading -/

/-- Reads the node at a place, which may ask for what is read at other places. -/
def visit {α : Type} (read : Node → (Nat → Option α) → Option α) (nodes : List Node) :
    (depth place : Nat) → Option α
  | 0, _ => none
  | depth + 1, place =>
    match nodes[place]? with
    | some node => read node (visit read nodes depth)
    | none => none

def readSatisfied : Node → (Nat → Option Bool) → Option Bool
  | .leaf _ _ t, _ => some (t.occurrences.any t.meets)
  | .conditional op left right t, below =>
    match t.occurrences, op with
    | some range, _ => some (t.meets range)
    | none, .and => do if ← below left then below right else some false
    | none, .or => do if ← below left then some true else below right

def readIndices : Node → (Nat → Option IndexSet) → Option IndexSet
  | .leaf _ _ t, _ => some t.matched
  | .conditional _ left right t, below => do
    let l ← below left
    let r ← below right
    some (t.matched ∪ l ∪ r)

def readCeiling : Node → (Nat → Option (Option Float)) → Option (Option Float)
  | .leaf _ _ t, _ => some (t.timing.map Range.maximum)
  | .conditional _ left right t, below =>
    match t.timing with
    | some window => some (some window.maximum)
    | none => do
      match ← below left, ← below right with
      | some l, some r => some (some (later l r))
      | l, r => some (l <|> r)

def readText : Node → (Nat → Option (List Char)) → Option (List Char)
  | .leaf _ name t, _ => some (writeName name.toList ++ t.write)
  | .conditional op left right t, below => do
    let l ← below left
    let r ← below right
    some ('(' :: l ++ ' ' :: op.text.toList ++ ' ' :: r ++ ')' :: t.write)

/-! ## Filling in defaults -/

/-- Goes through the places that are pending, each with the kinds of limits that are still open
there. Below a node where none is open there is nothing to fill in. -/
def fillFrom (d : Defaults) :
    (steps : Nat) → List (Nat × Bool × Bool) → List Node → Option (List Node)
  | _, [], nodes => some nodes
  | 0, _ :: _, _ => none
  | steps + 1, (place, countOpen, timeOpen) :: pending, nodes =>
    match nodes[place]? with
    | none => none
    | some node =>
      let countOpen := countOpen && node.tally.occurrences.isNone
      let timeOpen := timeOpen && node.tally.timing.isNone
      match node with
      | .leaf .. =>
        fillFrom d steps pending <| nodes.modify place <| Node.mapTally fun t =>
          { t with
            occurrences := if countOpen then some d.occurrences else t.occurrences
            timing := if timeOpen then some d.timing else t.timing }
      | .conditional _ left right _ =>
        if countOpen || timeOpen then
          fillFrom d steps ((left, countOpen, timeOpen) :: (right, countOpen, timeOpen) :: pending)
            nodes
        else fillFrom d steps pending nodes

def fill (d : Defaults) (nodes : List Node) (root : Nat) : Option (List Node) :=
  fillFrom d nodes.length [(root, true, true)] nodes

/-- The nodes of a step and the place of its root. They lack nodes if a default was to be filled in
outside of the list. -/
def compile (d : Defaults) (registry : Registry) (tokens : List Token) :
    Except PatternError (Option (List Node) × Nat) × Registry :=
  let (result, registry) := build registry [] [] tokens
  (result.map fun (nodes, root) => (fill { d with timing := d.timing.asWindow } nodes root, root),
    registry)

/-! ## Feeding an event -/

structure Fed where
  outcome : Outcome
  nodes : List Node
  attempt : Attempt

def expire (nodes : List Node) (a : Attempt) (depth place : Nat) : Option Fed := do
  if ← visit readSatisfied nodes depth place then
    some ⟨.completed, nodes, a.collect (← visit readIndices nodes depth place)⟩
  else some ⟨.canceled, nodes.modify place (Node.mapTally Tally.forget), a⟩

/-- Settles what an event did to the node at a place. -/
def settle (nodes : List Node) (a : Attempt) (place index : Nat) (time : Float) (o : Outcome) :
    Option Fed :=
  match nodes[place]? with
  | none => none
  | some node =>
    let (o, t, a) := node.tally.settle a index time o
    some ⟨o, nodes.modify place (Node.mapTally fun _ => t), a⟩

def feed (index : Nat) (event : Event) :
    (depth place : Nat) → List Node → Attempt → Option Fed
  | 0, _, _, _ => none
  | depth + 1, place, nodes, a =>
    match nodes[place]? with
    | none => none
    | some node =>
      match a.phase event.time node.tally.timing with
      | .early => some ⟨.beforeTime, nodes, a⟩
      | .late => expire nodes a (depth + 1) place
      | .inside =>
        match node with
        | .leaf behavior _ _ =>
          let o := if behavior = event.behavior then .stepped else .skipped
          settle nodes a place index event.time o
        | .conditional op left right _ => do
          let l ← feed index event depth left nodes a
          let r ← feed index event depth right l.nodes l.attempt
          settle r.nodes r.attempt place index event.time (op.join l.outcome r.outcome)

/-- Feeds events with their indices one by one. -/
def feedAll (root : Nat) : List Node → Attempt → List (Event × Nat) → Option (List Node × Attempt)
  | nodes, a, [] => some (nodes, a)
  | nodes, a, (event, index) :: rest => do
    let f ← feed index event nodes.length root nodes a
    feedAll root f.nodes f.attempt rest

end Arena

end TimedPattern
