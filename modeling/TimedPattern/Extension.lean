import TimedPattern.Aggregate
import TimedPattern.Note

/-!
# Loading the extension

Loading registers the functions one by one. One that the host refuses does not stop the others.
-/

namespace TimedPattern.Extension

def apiVersion : String := "v1.2.0"

structure Host where
  /-- Whether it has the interface at all. -/
  api : Bool
  /-- Whether it gives access to its database. -/
  database : Bool
  /-- Whether it takes error messages. -/
  errors : Bool
  /-- Whether a connection can be opened. -/
  connection : Bool
  /-- Whether it accepts a function. -/
  accepts : Aggregate → Bool

inductive LoadError where
  | noDatabase
  | noConnection
  deriving DecidableEq, Repr

namespace LoadError

def message : LoadError → String
  | noDatabase => "extension access provides no get_database"
  | noConnection => "Failed to open DuckDB connection for extension registration"

end LoadError

structure Loading where
  loaded : Bool
  /-- The message that the host was given. -/
  reported : Option String
  /-- The functions that were offered, and whether the host took them. -/
  attempts : List (Aggregate × Bool)
  notes : List Note

namespace Host

/-- Tries to connect. Without the interface there is nothing to connect to, which is no error. -/
def connect? (h : Host) : Except LoadError Bool :=
  if ! h.api then .ok false
  else if ! h.database then .error .noDatabase
  else if ! h.connection then .error .noConnection
  else .ok true

def register (h : Host) (function : Aggregate) : Note :=
  if h.accepts function then .registered function.name else .refused function.name

def load (h : Host) : Loading :=
  match h.connect? with
  | .ok false => ⟨false, none, [], []⟩
  | .ok true =>
    ⟨true, none, Aggregate.all.map fun f => (f, h.accepts f), Aggregate.all.map h.register⟩
  | .error e => ⟨false, if h.errors then some e.message else none, [], [.loadFailed e.message]⟩

end Host

def Host.full : Host := ⟨true, true, true, true, fun _ => true⟩

end TimedPattern.Extension
