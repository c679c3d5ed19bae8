import TimedPattern.Decimal.Format
import TimedPattern.IndexSet
import TimedPattern.Outcome

/-!
# Notes

What the library reports about its own work, as data. Nothing here changes a result.
-/

namespace TimedPattern

inductive Level where
  | trace
  | debug
  | warn
  deriving DecidableEq, Repr

namespace Level

def name : Level → String
  | trace => "TRACE"
  | debug => "DEBUG"
  | warn => "WARN"

end Level

inductive Note where
  | compiled (pattern : String) (steps : Nat)
  | recorded (pattern : String) (indices : List Nat)
  | evaluated (index : Nat) (outcome : Outcome)
  | failed (start anchor : Nat)
  | ranOut (start anchor : Nat) (outcome : Outcome)
  | handedOver (baseline : Float) (deadline : Option Float)
  | registered (function : String)
  | refused (function : String)
  | loadFailed (error : String)
  | invalidPattern (function : String) (error : String)
  deriving Repr

namespace Note

def level : Note → Level
  | compiled .. | recorded .. | registered _ | invalidPattern .. => .debug
  | evaluated .. | failed .. | ranOut .. | handedOver .. => .trace
  | refused _ | loadFailed _ => .warn

def message : Note → String
  | compiled .. => "compiled pattern"
  | recorded .. => "recorded match"
  | evaluated .. => "step evaluated event"
  | failed .. => "step failed"
  | ranOut .. => "step ran out of events"
  | handedOver .. => "step handed over"
  | registered _ => "registered aggregate"
  | refused _ => "failed to register aggregate"
  | loadFailed _ => "behavior_pattern: extension init failed"
  | invalidPattern function _ => function ++ ": invalid pattern"

def number (x : Float) : String := String.ofList (Decimal.write .trace x)

def optional : Option Float → String
  | some x => "Some(" ++ number x ++ ")"
  | none => "None"

def braced (indices : List Nat) : String :=
  "\x7b" ++ String.intercalate ", " (indices.map toString) ++ "\x7d"

/-- A name in quotes. The names of functions hold nothing that would need an escape. -/
def quoted (name : String) : String := "\"" ++ name ++ "\""

def fields : Note → List (String × String)
  | compiled pattern steps => [("pattern", pattern), ("steps", toString steps)]
  | recorded pattern indices => [("pattern", pattern), ("indices", braced indices)]
  | evaluated index outcome => [("index", toString index), ("outcome", outcome.name)]
  | failed start anchor => [("start", toString start), ("anchor", toString anchor)]
  | ranOut start anchor outcome =>
    [("start", toString start), ("anchor", toString anchor), ("outcome", outcome.name)]
  | handedOver baseline deadline =>
    [("baseline", number baseline), ("deadline", optional deadline)]
  | registered function | refused function => [("function", quoted function)]
  | loadFailed error | invalidPattern _ error => [("error", error)]

end Note

end TimedPattern
