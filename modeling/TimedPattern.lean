import TimedPattern.Aggregate.Groups
import TimedPattern.Extension
import TimedPattern.Pattern.Stage
import TimedPattern.PatternSet
import TimedPattern.Proofs.Matches
import TimedPattern.Proofs.FloatBits
import TimedPattern.Proofs.FloatOrder
import TimedPattern.Proofs.Trim
import TimedPattern.Proofs.Chain.Scan
import TimedPattern.Proofs.Chain
import TimedPattern.Proofs.Compiled
import TimedPattern.Proofs.Arena
import TimedPattern.Proofs.Grammar
import TimedPattern.Proofs.Rounding
import TimedPattern.Proofs.Numerals
import TimedPattern.Proofs.Lexing
import TimedPattern.Proofs.Rendering
import TimedPattern.Proofs.RoundTrip
import TimedPattern.Proofs.Satisfied
import TimedPattern.Proofs.StepOrder
import TimedPattern.Proofs.FloatZeros
import TimedPattern.Proofs.OperandOrder
import TimedPattern.Proofs.StableSort
import TimedPattern.Proofs.Registries
import TimedPattern.Proofs.Merging
import TimedPattern.Proofs.Placement
import TimedPattern.Proofs.HandOver
import TimedPattern.Proofs.Shift
import TimedPattern.Proofs.Stages
import TimedPattern.Proofs.Attempts
import TimedPattern.Proofs.Sets
import TimedPattern.Proofs.MergeOrder
import TimedPattern.Proofs.Ceilings
import TimedPattern.Proofs.GroupCalls
import TimedPattern.Proofs.IdleSteps
import TimedPattern.Proofs.Termination
import TimedPattern.Proofs.Recorded
import TimedPattern.Proofs.NameText
import TimedPattern.Proofs.Postfix
import TimedPattern.Proofs.Arena.Shape
import TimedPattern.Proofs.Filling
import TimedPattern.Proofs.Parsing
import TimedPattern.Proofs.Answers
import TimedPattern.Proofs.LaterEvents
import TimedPattern.Proofs.Arena.Frame
import TimedPattern.Proofs.ListLayout
import TimedPattern.Proofs.Interning
import TimedPattern.Proofs.LexemeStream
import TimedPattern.Proofs.TextPlaces
import TimedPattern.Proofs.Windows
import TimedPattern.Proofs.RangeText
