import TimedPattern.Note
import TimedPattern.Pattern.Search

/-! # Notes on a search -/

namespace TimedPattern

namespace Scan

/-- One note for each event, then one for the end. -/
def notes (s : Scan) : List Note :=
  let events := s.outcomes.mapIdx fun i o => Note.evaluated (s.start + i) o
  let ending :=
    match s.isSatisfied, s.ending, s.progress with
    | true, _, some p => [.handedOver p.time s.attempt.deadline]
    | true, _, none => []
    | false, .ranOut _ last, _ => [.ranOut s.start s.anchor last]
    | false, _, _ => [.failed s.start s.anchor]
  events ++ ending

end Scan

namespace Pattern

def parseNotes (p : Pattern) : List Note := [.compiled p.name p.steps.length]

/-- The notes of the scans, then one if there is a match. -/
def trialNotes (p : Pattern) (t : Trial) : List Note :=
  t.scans.flatMap Scan.notes ++ t.match?.toList.map (.recorded p.name)

def searchNotes (p : Pattern) (events : List Event) : List Note :=
  (p.trials events).flatMap p.trialNotes

end Pattern

end TimedPattern
