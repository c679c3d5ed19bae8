/-!
# Outcomes

What feeding one event says about a node, from best to worst. `&` takes the worse of its two sides,
because both must succeed in the end, and `|` the better one.
-/

namespace TimedPattern

inductive Outcome where
  /-- The limits are met and the window has passed. The matched indices belong to the match. -/
  | completed
  /-- The event matched, and the count is acceptable. The node may still take more. -/
  | steppedAndTechnicallyComplete
  /-- The count is acceptable, though this event did not match. -/
  | technicallyComplete
  /-- The event matched, but the count is still below its minimum. -/
  | stepped
  /-- The event does not concern the node. -/
  | skipped
  /-- Less time has passed than the window asks for. -/
  | beforeTime
  /-- The count is below its minimum, and this event did not match. -/
  | notEnoughOccurrences
  /-- A count or a window was exceeded. The matched indices are discarded. -/
  | canceled
  /-- Nothing has matched and no baseline exists, so the attempt fails. -/
  | invalid
  deriving DecidableEq, Repr

namespace Outcome

def all : List Outcome :=
  [completed, steppedAndTechnicallyComplete, technicallyComplete, stepped, skipped, beforeTime,
    notEnoughOccurrences, canceled, invalid]

/-- The place of an outcome among all, 0 for the best. -/
def rank : Outcome → Nat
  | completed => 0
  | steppedAndTechnicallyComplete => 1
  | technicallyComplete => 2
  | stepped => 3
  | skipped => 4
  | beforeTime => 5
  | notEnoughOccurrences => 6
  | canceled => 7
  | invalid => 8

def name : Outcome → String
  | completed => "Completed"
  | steppedAndTechnicallyComplete => "SteppedAndTechnicallyComplete"
  | technicallyComplete => "TechnicallyComplete"
  | stepped => "Stepped"
  | skipped => "Skipped"
  | beforeTime => "BeforeTime"
  | notEnoughOccurrences => "NotEnoughOccurrences"
  | canceled => "Canceled"
  | invalid => "Invalid"

/-- The better outcome is the lesser one. -/
instance : Ord Outcome := ⟨fun a b => compare a.rank b.rank⟩

def worse (a b : Outcome) : Outcome := if a.rank < b.rank then b else a

def better (a b : Outcome) : Outcome := if b.rank < a.rank then b else a

theorem rank_injective {a b : Outcome} (h : a.rank = b.rank) : a = b := by
  cases a <;> cases b <;> simp_all [rank]

theorem worse_comm (a b : Outcome) : a.worse b = b.worse a := by
  unfold worse
  split
  · rw [if_neg (by omega)]
  · split
    · rfl
    · exact rank_injective (by omega)

theorem better_comm (a b : Outcome) : a.better b = b.better a := by
  unfold better
  split
  · rw [if_neg (by omega)]
  · split
    · rfl
    · exact rank_injective (by omega)

theorem rank_worse (a b : Outcome) : (a.worse b).rank = max a.rank b.rank := by
  unfold worse
  split <;> omega

theorem rank_better (a b : Outcome) : (a.better b).rank = min a.rank b.rank := by
  unfold better
  split <;> omega

def isStepped : Outcome → Bool
  | stepped | steppedAndTechnicallyComplete => true
  | _ => false

/-- Whether a scan may stop here. -/
def isAcceptable : Outcome → Bool
  | completed | steppedAndTechnicallyComplete | technicallyComplete => true
  | _ => false

/-- Whether the attempt has failed. -/
def isFailure : Outcome → Bool
  | canceled | invalid => true
  | _ => false

theorem isAcceptable_iff {o : Outcome} : o.isAcceptable = true ↔ o.rank ≤ 2 := by
  cases o <;> simp [isAcceptable, rank]

theorem isFailure_iff {o : Outcome} : o.isFailure = true ↔ 7 ≤ o.rank := by
  cases o <;> simp [isFailure, rank]

end Outcome

end TimedPattern
