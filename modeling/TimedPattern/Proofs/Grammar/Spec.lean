import TimedPattern.Expression
import TimedPattern.Token

/-!
# The grammar of a step

```
or      := and ('|' and)*
and     := operand ('&' operand)*
operand := (behavior | '(' or ')') limit*
```

A sentence of the grammar has tokens, an order with operands first, and a tree. The tree is read off
the rules: each operator joins what stands on its sides, brackets make no node, and a limit belongs
to the node of the operand in front of it.
-/

namespace TimedPattern

inductive Limit where
  | occurrences (range : Range)
  | timing (range : Range)

namespace Limit

def kind : Limit → TokenKind
  | occurrences range => .occurrences range
  | timing range => .timing range

/-- The first limit of a kind is the one that counts. -/
def apply : Limit → Tally → Tally
  | occurrences range, t => t.limitOccurrences range
  | timing range, t => t.limitTiming range

end Limit

mutual

/-- A row of conjunctions with `|` between them. Every position is the place of a token. -/
inductive Disjunction where
  | one (only : Conjunction)
  | or (left : Disjunction) (position : Nat) (right : Conjunction)

/-- A row of factors with `&` between them. -/
inductive Conjunction where
  | one (only : Factor)
  | and (left : Conjunction) (position : Nat) (right : Factor)

/-- A behavior or a group, with the limits behind it. -/
inductive Factor where
  | behavior (name : String) (position : Nat)
  | group (opened : Nat) (inner : Disjunction) (closed : Nat)
  | limited (inner : Factor) (limit : Limit) (position : Nat)

end

/-! ## Tokens -/

mutual

def Disjunction.tokens : Disjunction → List Token
  | .one only => only.tokens
  | .or left position right => left.tokens ++ ⟨.operator .or, position⟩ :: right.tokens

def Conjunction.tokens : Conjunction → List Token
  | .one only => only.tokens
  | .and left position right => left.tokens ++ ⟨.operator .and, position⟩ :: right.tokens

def Factor.tokens : Factor → List Token
  | .behavior name position => [⟨.behavior name, position⟩]
  | .group opened inner closed =>
    ⟨.groupOpen, opened⟩ :: (inner.tokens ++ [⟨.groupClose, closed⟩])
  | .limited inner limit position => inner.tokens ++ [⟨limit.kind, position⟩]

end

mutual

/-- The tokens with operands first and without brackets. -/
def Disjunction.operandsFirst : Disjunction → List Token
  | .one only => only.operandsFirst
  | .or left position right =>
    left.operandsFirst ++ right.operandsFirst ++ [⟨.operator .or, position⟩]

def Conjunction.operandsFirst : Conjunction → List Token
  | .one only => only.operandsFirst
  | .and left position right =>
    left.operandsFirst ++ right.operandsFirst ++ [⟨.operator .and, position⟩]

def Factor.operandsFirst : Factor → List Token
  | .behavior name position => [⟨.behavior name, position⟩]
  | .group _ inner _ => inner.operandsFirst
  | .limited inner limit position => inner.operandsFirst ++ [⟨limit.kind, position⟩]

end

/-! ## Trees -/

mutual

/-- The tree, and the registry once the names are interned from left to right. -/
def Disjunction.tree (r : Registry) : Disjunction → Expression × Registry
  | .one only => only.tree r
  | .or left _ right =>
    let (l, r) := left.tree r
    let (e, r) := right.tree r
    (.conditional .or l e {}, r)

def Conjunction.tree (r : Registry) : Conjunction → Expression × Registry
  | .one only => only.tree r
  | .and left _ right =>
    let (l, r) := left.tree r
    let (e, r) := right.tree r
    (.conditional .and l e {}, r)

def Factor.tree (r : Registry) : Factor → Expression × Registry
  | .behavior name _ =>
    let (id, r) := r.intern name
    (.leaf id name {}, r)
  | .group _ inner _ => inner.tree r
  | .limited inner limit _ =>
    let (e, r) := inner.tree r
    (e.mapTally limit.apply, r)

end

end TimedPattern
