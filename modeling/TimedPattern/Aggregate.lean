/-!
# Aggregate functions

The three functions that a database can call on groups of rows. They share their rows, and differ in
what they make of the matches.
-/

namespace TimedPattern

inductive ColumnType where
  | varchar
  | timestamp
  | boolean
  | bigint
  | list (item : ColumnType)
  deriving DecidableEq, Repr

namespace ColumnType

def name : ColumnType → String
  | varchar => "VARCHAR"
  | timestamp => "TIMESTAMP"
  | boolean => "BOOLEAN"
  | bigint => "BIGINT"
  | list item => "LIST(" ++ item.name ++ ")"

end ColumnType

inductive Aggregate where
  /-- Whether the pattern matches. -/
  | found
  /-- The number of matches. -/
  | count
  /-- The times of the first match. -/
  | events
  deriving DecidableEq, Repr

namespace Aggregate

/-- The functions in the order in which they are registered. -/
def all : List Aggregate := [found, count, events]

def name : Aggregate → String
  | found => "behavior_pattern_match"
  | count => "behavior_pattern_count"
  | events => "behavior_pattern_events"

def parameters (_ : Aggregate) : List ColumnType := [.varchar, .timestamp, .varchar]

def returns : Aggregate → ColumnType
  | found => .boolean
  | count => .bigint
  | events => .list .timestamp

end Aggregate

end TimedPattern
