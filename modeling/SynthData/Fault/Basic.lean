import SynthData.Calendar.Basic
import SynthData.Calendar.Text
import SynthData.Value.Basic

/-!
# What can go wrong

Every failure is one of the causes below, and each cause belongs to one of three kinds: bad
parameters, misuse of a generator's life cycle or a state that forbids the call, and requests that
a strategy cannot serve at all. `Fault.kind` says which. `Fault.text` describes the cause and
`Fault.message` puts the kind in front of it.
-/

namespace SynthData

/-! ## The life of a generator

A generator is created, runs after it has been initialized, and ends closed. It never goes back.
-/

/-- Where a generator is in its life. -/
inductive Phase where
  | created
  | running
  | closed
deriving DecidableEq, Repr

/-- The phase as a word. -/
def Phase.text : Phase → String
  | .created => "created"
  | .running => "running"
  | .closed => "closed"

/-! ## Causes -/

/-- The kinds of failures. -/
inductive FaultKind where
  /-- Parameters that can never work. -/
  | config
  /-- A call that the generator's state does not allow. -/
  | illegalState
  /-- A request outside what a strategy can do. -/
  | unsupported
deriving DecidableEq, Repr

/-- The cause of a failure. -/
inductive Fault where
  /-- Bounds in the wrong order. -/
  | minAboveMax (min max : Number)
  | unboundedRange (min max : Float)
  | granularityNotPositive (granularity : Number)
  | initialOutside (initial : Float) (min max : Number)
  | stepsReversed (least most : Int64)
  | incrementZero
  | headSizeZero
  | drawsZero
  | poolSizeZero
  | deviationNotPositive (deviation : Float)
  | rateNotPositive (rate : Float)
  | paretoNotPositive (scale shape : Float)
  | noProbabilityMass (min max : Number)
  | tableTooLarge (min max granularity : Number) (points limit : Nat)
  /-- A setting of a generator that has already been initialized. -/
  | frozen (property : String)
  /-- Strategies that repeat values by nature. -/
  | cumulatedUnique
  | walkUnique (least : Int64)
  | stepUnique
  | weightUnique
  | itemWeightUnique
  | inverseUnique
  /-- Strategies that need items and cannot produce numbers. -/
  | noNumbers
  | unregistered (name : String)
  | unknownSequence (call : String)
  | unknownWeight (call : String)
  | unknownCumulative (call : String)
  | featureWithoutName
  | unclosedCall (call : String)
  | badArgument (argument call : String)
  | notInteger (value : Float)
  | notCount (value : Int64)
  | tooManyDraws (draws : Float)
  | granularityForm (text : String)
  | granularityNumber (part text : String)
  | dateGranularityZero
  | datesReversed (min max : Date)
  | tooManyDateSteps (steps : Nat)
  | timeGranularityNotPositive (granularity : Int64)
  | timesReversed (min max : TimeOfDay)
  | fieldWithoutValues (field : String)
  /-- Initialization of a generator that is not new. -/
  | notCreated (owner : String) (phase : Phase)
  | notInitialized (owner : String)
  | alreadyClosed (owner : String)
  | badWeight (weight : Float) (position : Nat)
  | zeroTotalWeight (items : Nat)
  | positionOutside (strategy : String) (position length : Nat)
  | repeatedValues (repeats distinct : Nat)
  | dateStepOutside (step : Number)
  | timeOffsetOutside (offset : Int64)
  /-- A failure of a generator or walk from outside the library. -/
  | other (kind : FaultKind) (text : String)

/-- The kind a cause belongs to. -/
def Fault.kind : Fault → FaultKind
  | .notCreated .. => .illegalState
  | .notInitialized .. => .illegalState
  | .alreadyClosed .. => .illegalState
  | .badWeight .. => .illegalState
  | .zeroTotalWeight .. => .illegalState
  | .positionOutside .. => .illegalState
  | .repeatedValues .. => .illegalState
  | .dateStepOutside .. => .illegalState
  | .timeOffsetOutside .. => .illegalState
  | .inverseUnique => .unsupported
  | .noNumbers => .unsupported
  | .other kind _ => kind
  | _ => .config

namespace Phase

/-- Initialization is for new generators only. -/
def requireCreated (owner : String) : Phase → Except Fault Unit
  | .created => .ok ()
  | phase => .error (.notCreated owner phase)

/-- Values come from running generators only. -/
def requireRunning (owner : String) : Phase → Except Fault Unit
  | .running => .ok ()
  | .created => .error (.notInitialized owner)
  | .closed => .error (.alreadyClosed owner)

/-- A closed generator cannot start over. -/
def requireOpen (owner : String) : Phase → Except Fault Unit
  | .closed => .error (.alreadyClosed owner)
  | _ => .ok ()

end Phase

/-! ## Wording -/

/-- How a message of this kind begins. -/
def FaultKind.heading : FaultKind → String
  | .config => "Configuration error: "
  | .illegalState => "Illegal generator state: "
  | .unsupported => "Unsupported operation: "

namespace Fault

/-- The description of a cause. -/
def text : Fault → String
  | minAboveMax min max => s!"min ({min.text}) must not be greater than max ({max.text})"
  | unboundedRange min max => s!"bounds must be finite, got [{plainText min}, {plainText max}]"
  | granularityNotPositive g => s!"granularity must be positive, got {g.text}"
  | initialOutside x min max =>
    s!"initial value {plainText x} is outside [{min.text}, {max.text}]"
  | stepsReversed least most =>
    s!"min_step ({least.toInt}) must not be greater than max_step ({most.toInt})"
  | incrementZero => "shuffle increment must be positive"
  | headSizeZero => "head size must be positive"
  | drawsZero => "cumulated needs at least one draw"
  | poolSizeZero => "expand pool size must be positive"
  | deviationNotPositive d => s!"standard deviation must be positive, got {plainText d}"
  | rateNotPositive rate => s!"exponential rate must be positive, got {plainText rate}"
  | paretoNotPositive scale shape =>
    s!"pareto scale and shape must be positive, got {plainText scale} and {plainText shape}"
  | noProbabilityMass min max =>
    s!"cumulative distribution has no probability mass in [{min.text}, {max.text}]"
  | tableTooLarge min max g points limit =>
    s!"weight table for [{min.text}, {max.text}] by {g.text} needs {points} points, " ++
      s!"at most {limit} are supported"
  | frozen property => property ++ " cannot be changed after initialization"
  | cumulatedUnique => "cumulated distribution cannot generate unique values"
  | walkUnique least =>
    s!"random walk can only be unique with a positive min_step, got {least.toInt}"
  | stepUnique => "step with delta 0 cannot produce unique values"
  | weightUnique => "weight functions cannot generate unique values"
  | itemWeightUnique => "weight-based strategies cannot generate unique values"
  | inverseUnique => "cumulative distribution functions cannot generate unique values"
  | noNumbers => "number generation is not supported by weight-based strategies"
  | unregistered name => s!"no sequence registered under the name '{name}'"
  | unknownSequence call => s!"unknown sequence '{call}'"
  | unknownWeight call => s!"unknown weight function '{call}'"
  | unknownCumulative call => s!"unknown cdf '{call}'"
  | featureWithoutName => "feature weight needs a field name"
  | unclosedCall call => s!"missing ')' in '{call}'"
  | badArgument argument call => s!"invalid argument '{argument}' in '{call}'"
  | notInteger value => s!"expected an integer, got {plainText value}"
  | notCount value => s!"expected a non-negative count, got {value.toInt}"
  | tooManyDraws draws => s!"too many draws: {plainText draws}"
  | granularityForm text =>
    s!"date granularity must have the form 'years,months,days', got '{text}'"
  | granularityNumber part text => s!"invalid number '{part}' in date granularity '{text}'"
  | dateGranularityZero => "date granularity must not be zero"
  | datesReversed min max => s!"min date {min.text} is after max date {max.text}"
  | tooManyDateSteps steps => s!"too many date steps: {steps}"
  | timeGranularityNotPositive g => s!"time granularity must be positive, got {g.toInt}"
  | timesReversed min max => s!"min time {min.text} is after max time {max.text}"
  | fieldWithoutValues field => s!"field '{field}' has no values"
  | notCreated owner phase => s!"{owner} cannot be initialized in state {phase.text}"
  | notInitialized owner => s!"{owner} has not been initialized"
  | alreadyClosed owner => s!"{owner} has already been closed"
  | badWeight weight position => s!"invalid weight {plainText weight} at position {position}"
  | zeroTotalWeight items => s!"total weight of {items} items is zero"
  | positionOutside strategy position length =>
    s!"distribution '{strategy}' produced index {position} for {length} values"
  | repeatedValues repeats distinct =>
    s!"unique generator produced {repeats} duplicates in a row after {distinct} distinct values"
  | dateStepOutside step => s!"date step {step.text} is out of range"
  | timeOffsetOutside offset => s!"time offset {offset.toInt} is out of range"
  | other _ text => text

/-- The whole message: the kind, then the cause. -/
def message (fault : Fault) : String :=
  fault.kind.heading ++ fault.text

end Fault

end SynthData
