import SynthData.Generator.Shared
import SynthData.Main
import SynthData.Proofs.Depletion.Tree
import SynthData.Proofs.Field.Completeness
import SynthData.Proofs.Field.Deferral
import SynthData.Proofs.Field.Unique
import SynthData.Proofs.Generator.Cached
import SynthData.Proofs.Generator.Columns
import SynthData.Proofs.Generator.Emitted
import SynthData.Proofs.Generator.Positions
import SynthData.Proofs.Generator.Refused
import SynthData.Proofs.Generator.Resampled
import SynthData.Proofs.Generator.Stretches
import SynthData.Proofs.Guarded.Strategies
import SynthData.Proofs.Strategy.Doubles
import SynthData.Proofs.Strategy.Limit
import SynthData.Proofs.Strategy.Terms
import SynthData.Proofs.Temporal.Reach
import SynthData.Proofs.Walk.Drift
import SynthData.Proofs.Walk.Reversal
import SynthData.Proofs.Walk.Rounds
import SynthData.Proofs.Walk.Shuffled
import SynthData.Proofs.Weight.Exact
import SynthData.Proofs.Weight.Shares
import SynthData.Proofs.Temporal.Strides
import SynthData.Proofs.Command.Rows
import SynthData.Proofs.Double.Fractions
import SynthData.Proofs.Double.Literals
import SynthData.Proofs.Strategy.Parameters
import SynthData.Proofs.Strategy.Strides
import SynthData.Proofs.Walk.Converging
import SynthData.Proofs.Generator.Heads
import SynthData.Proofs.Strategy.Grammar
import SynthData.Proofs.Calendar.Written
import SynthData.Proofs.Generator.Remembered
import SynthData.Proofs.Grid.Exact
