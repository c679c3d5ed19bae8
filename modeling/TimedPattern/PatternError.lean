import TimedPattern.Symbol
import TimedPattern.Token

/-!
# Pattern errors

A fault says what was found, and an error says where. Every fault has one kind and one wording.
-/

namespace TimedPattern

/-- One item between region brackets. -/
inductive RegionItem where
  | flag (c : Char)
  | number (value : Float)
  deriving Repr

namespace RegionItem

def write : RegionItem → List Char
  | flag c => [c]
  | number value => Decimal.write .plain value

def text (items : List RegionItem) : String := String.ofList (items.flatMap write)

end RegionItem

inductive Fault where
  | missingResult
  | duplicateResult
  | emptyStep
  | groupNotOpened
  | groupNotClosed
  /-- A bracket where an operand or an operator was due. -/
  | groupLeftOver
  | regionInterrupted (found close : Symbol)
  | regionNotClosed (close : Symbol)
  | regionNotOpened (close : Symbol)
  | unknownOccurrences (items : List RegionItem)
  | timingWithoutMark (items : List RegionItem)
  | timingWithoutRange (items : List RegionItem)
  | notANumber (text : String)
  | badRange (error : RangeError)
  | reservedOperator
  | unexpectedSymbol (symbol : Symbol)
  | modifierWithoutOperand
  | operatorWithoutOperands (op : Operator)
  | occurrencesWithoutOperand
  | timingWithoutOperand
  | noBehavior
  | missingOperator
  deriving Repr

inductive FaultKind where
  | missingResult
  | duplicateResult
  | emptyStep
  | unbalancedGroup
  | unbalancedRegion
  | unknownFlag
  | invalidTiming
  | invalidNumber
  | invalidRange
  | reservedOperator
  | malformedExpression
  deriving DecidableEq, Repr

namespace Fault

def kind : Fault → FaultKind
  | missingResult => .missingResult
  | duplicateResult => .duplicateResult
  | emptyStep => .emptyStep
  | groupNotOpened | groupNotClosed | groupLeftOver => .unbalancedGroup
  | regionInterrupted .. | regionNotClosed _ | regionNotOpened _ => .unbalancedRegion
  | unknownOccurrences _ => .unknownFlag
  | timingWithoutMark _ | timingWithoutRange _ => .invalidTiming
  | notANumber _ => .invalidNumber
  | badRange _ => .invalidRange
  | reservedOperator => .reservedOperator
  | unexpectedSymbol _ | modifierWithoutOperand | operatorWithoutOperands _
  | occurrencesWithoutOperand | timingWithoutOperand | noBehavior | missingOperator =>
    .malformedExpression

def message : Fault → String
  | missingResult => "missing result operator '=>'"
  | duplicateResult => "more than one result operator '=>'"
  | emptyStep => "empty step"
  | groupNotOpened => "missing opening '('"
  | groupNotClosed => "missing closing ')'"
  | groupLeftOver => "unexpected bracket"
  | regionInterrupted found close =>
    "unexpected '" ++ found.text ++ "' inside region, expected '" ++ close.text ++ "'"
  | regionNotClosed close => "region is not closed, expected '" ++ close.text ++ "'"
  | regionNotOpened close => "'" ++ close.text ++ "' without a matching opening bracket"
  | unknownOccurrences items =>
    "unrecognized occurrence flag '[" ++ RegionItem.text items ++ "]'"
  | timingWithoutMark items =>
    "timing region must start with 's', got '\x7b" ++ RegionItem.text items ++ "\x7d'"
  | timingWithoutRange items =>
    "expected a range after 's', got '\x7b" ++ RegionItem.text items ++ "\x7d'"
  | notANumber text => "expected a number inside region, got '" ++ text ++ "'"
  | badRange error => error.message
  | reservedOperator => "operator '^' is reserved and not supported"
  | unexpectedSymbol symbol => "unexpected '" ++ symbol.text ++ "'"
  | modifierWithoutOperand => "flag does not follow a behavior or group"
  | operatorWithoutOperands op => "operator '" ++ op.text ++ "' needs two operands"
  | occurrencesWithoutOperand => "occurrence flag does not follow a behavior or group"
  | timingWithoutOperand => "timing flag does not follow a behavior or group"
  | noBehavior => "step contains no behavior"
  | missingOperator => "missing operator between operands"

end Fault

/-- A fault and the byte where it was found. -/
structure PatternError where
  fault : Fault
  position : Nat
  deriving Repr

namespace PatternError

def kind (e : PatternError) : FaultKind := e.fault.kind

def message (e : PatternError) : String :=
  "pattern error at position " ++ toString e.position ++ ": " ++ e.fault.message

end PatternError

end TimedPattern
