import TimedPattern.Pattern.Notes

/-!
# Pattern sets

Patterns that share one registry, so that events can be made from names without a care for numbers.
-/

namespace TimedPattern

structure PatternSet where
  registry : Registry := .empty
  patterns : List Pattern := []
  defaults : Defaults := {}

namespace PatternSet

/-- Reads one more pattern and tells its place in the set. A faulty text leaves nothing behind but
names. -/
def add (s : PatternSet) (text : String) : Except PatternError Nat × PatternSet :=
  match Pattern.parse s.defaults s.registry text with
  | (.error e, registry) => (.error e, { s with registry })
  | (.ok p, registry) => (.ok s.patterns.length, { s with registry, patterns := s.patterns ++ [p] })

/-- Reads patterns up to the first fault. Those in front of it stay. -/
def addAll (s : PatternSet) : List String → Except PatternError Unit × PatternSet
  | [] => (.ok (), s)
  | text :: rest =>
    match s.add text with
    | (.error e, s) => (.error e, s)
    | (.ok _, s) => s.addAll rest

def event (s : PatternSet) (name : String) (time : Float) : Event × PatternSet :=
  let (event, registry) := Event.named s.registry name time
  (event, { s with registry })

def events (s : PatternSet) (names : List String) (times : List Float) : List Event × PatternSet :=
  let (events, registry) := Event.ofNames s.registry names times
  (events, { s with registry })

/-- The matches of every pattern, in the order of the patterns. -/
def evaluate (s : PatternSet) (events : List Event) : List (List (List Nat)) :=
  s.patterns.map (·.findMatches events)

/-- The set after it has evaluated events. Its patterns keep what the search has left in them. -/
def evaluated (s : PatternSet) (events : List Event) : PatternSet :=
  { s with patterns := s.patterns.map (·.leftBy events) }

def evaluateNamed (s : PatternSet) (names : List String) (times : List Float) :
    List (List (List Nat)) × PatternSet :=
  let (events, s) := s.events names times
  (s.evaluate events, s.evaluated events)

def addNotes (s : PatternSet) (texts : List String) : List Note :=
  ((s.addAll texts).2.patterns.drop s.patterns.length).flatMap Pattern.parseNotes

def evaluateNotes (s : PatternSet) (events : List Event) : List Note :=
  s.patterns.flatMap (·.searchNotes events)

end PatternSet

end TimedPattern
