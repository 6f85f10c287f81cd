import SynthData.Generator.Filtered
import SynthData.Generator.Sample
import SynthData.Grid.Generator
import SynthData.Strategy.Numbers
import SynthData.Weight.Individual

/-!
# Strategies

A strategy says in which order and how often values come. It can make number generators over a
range (`Strategy.numbers`), and it can redistribute the values of a source (`Strategy.applyTo`). A
strategy itself never changes: streams and positions belong to the generators that it makes.

Most strategies redistribute a source by sampling positions of the list of its values. `expand` and
`head` work on the stream of values instead, and `itemWeight` weighs the values themselves.
-/

namespace SynthData

/-- The built-in strategies, and `fixed`, which is none of them: it stands for a strategy that a caller
brings along, and that need not keep to the range it is asked for. -/
inductive Strategy where
  /-- Uniform draws; without repetitions a random permutation. -/
  | random
  /-- Strides of a fixed length, from one beginning after the other. -/
  | shuffle (stride : UInt64) (positive : stride ≠ 0)
  /-- Means of several uniform draws. -/
  | cumulated (draws : UInt32) (positive : draws ≠ 0)
  /-- Random steps from a start, around the ends of the range. -/
  | randomWalk (least most : Int64) (ordered : least ≤ most) (initial : Option Float)
  /-- Equal steps from a start up to a limit. -/
  | step (delta : Int64) (initial limit : Option Float)
  /-- All points in ascending order, over and over. -/
  | increment
  /-- From both ends to the middle. -/
  | wedge
  /-- In the order of reversed counters. -/
  | bitReverse
  /-- Random members of a pool that is filled from the source. -/
  | expand (pool : Option Nat) (quota : Float)
  /-- Fibonacci numbers. -/
  | fibonacci
  /-- Padovan numbers. -/
  | padovan
  /-- The first points or values. -/
  | head (size : UInt64) (positive : size ≠ 0)
  /-- In proportion to a function of the number. -/
  | weight (function : WeightFunction)
  /-- By the inverse of a cumulative distribution function. -/
  | inverse (function : CumulativeFunction)
  /-- In proportion to a weight of the value itself. -/
  | itemWeight (weight : Value → Float)
  /-- Given numbers in their order, whatever the range. -/
  | fixed (numbers : List Number)

namespace Strategy

/-- The strategy is a built-in one, whose numbers depend on the range. -/
def Ranged (s : Strategy) : Prop := ∀ list, s ≠ fixed list

/-- Equal steps to the next point. -/
def plainStep : Strategy := step 1 none none

/-- Strides of a length that must be positive. -/
def ofStride (stride : UInt64) : Except Fault Strategy :=
  if h : stride = 0 then .error .incrementZero else .ok (shuffle stride h)

/-- The first values, of which there must be some. -/
def ofSize (size : UInt64) : Except Fault Strategy :=
  if h : size = 0 then .error .headSizeZero else .ok (head size h)

/-- Means of a number of draws that must be positive. -/
def ofDraws (draws : UInt32) : Except Fault Strategy :=
  if h : draws = 0 then .error .drawsZero else .ok (cumulated draws h)

/-- Random steps between two bounds, which must be in order. -/
def ofSteps (least most : Int64) (initial : Option Float) : Except Fault Strategy :=
  if h : least ≤ most then .ok (randomWalk least most h initial)
  else .error (.stepsReversed least most)

/-- The name of a strategy. -/
def name : Strategy → String
  | random => "random"
  | shuffle .. => "shuffle"
  | cumulated .. => "cumulated"
  | randomWalk .. => "randomWalk"
  | step .. => "step"
  | increment => "increment"
  | wedge => "wedge"
  | bitReverse => "bitreverse"
  | expand .. => "expand"
  | fibonacci => "fibonacci"
  | padovan => "padovan"
  | head .. => "head"
  | weight .. => "weight"
  | inverse .. => "cdf"
  | itemWeight .. => "individualWeight"
  | fixed .. => "fixed"

/-- Refuses requests that the strategy can serve for no range. -/
def check (unique : Bool) : Strategy → Except Fault Unit
  | cumulated .. => if unique then .error .cumulatedUnique else .ok ()
  | randomWalk least .. =>
    if unique && decide (least ≤ 0) then .error (.walkUnique least) else .ok ()
  | step delta .. => if unique && delta == 0 then .error .stepUnique else .ok ()
  | weight .. => if unique then .error .weightUnique else .ok ()
  | inverse .. => if unique then .error .inverseUnique else .ok ()
  | _ => .ok ()

/-- Whether the numbers go up from the least one and need no upper bound. -/
def openEnded : Strategy → Bool
  | step delta _ limit => decide (0 < delta) && limit.isNone
  | _ => false

/-- The grid index at which a walk begins: that of its initial value, which must lie in the
range. -/
def startIndex (spec : Spec) : Option Float → Except Fault Nat
  | none => .ok 0
  | some x =>
    match spec.floorIndex? x with
    | some i => .ok i
    | none => .error (.initialOutside x spec.min spec.max)

/-- A walk over the grid of a valid range. -/
def overGrid (owner : String) (spec : Spec) (walk : Walk) : Except Fault NumberGen :=
  match spec.validate with
  | .error fault => .error fault
  | .ok _ => .ok (.grid owner (.new spec walk))

/-- The generator of the numbers of a range. -/
def numbers (s : Strategy) (spec : Spec) (unique : Bool) : Except Fault NumberGen :=
  match s with
  | random => overGrid "RandomSequence" spec (.random (.new unique))
  | shuffle stride _ => overGrid "ShuffleSequence" spec (.shuffle (.new stride.toNat))
  | cumulated draws _ =>
    match s.check unique with
    | .error fault => .error fault
    | .ok _ => overGrid "CumulatedSequence" spec (.cumulated (.new draws.toNat))
  | randomWalk least most _ initial =>
    match spec.validate, s.check unique, startIndex spec initial with
    | .error fault, _, _ => .error fault
    | .ok _, .error fault, _ => .error fault
    | .ok _, .ok _, .error fault => .error fault
    | .ok _, .ok _, .ok start =>
      overGrid "RandomWalkSequence" spec (.drift (.new start least most unique))
  | step delta initial limit =>
    match spec.validate, s.check unique, startIndex spec initial with
    | .error fault, _, _ => .error fault
    | .ok _, .error fault, _ => .error fault
    | .ok _, .ok _, .error fault => .error fault
    | .ok _, .ok _, .ok _ =>
      overGrid NumberGen.stepOwner spec (.step (.new delta initial limit))
  | increment => overGrid "IncrementSequence" spec (.cycle (.new unique))
  | wedge => overGrid "WedgeSequence" spec (.wedge .new)
  | bitReverse => overGrid "BitReverseSequence" spec (.bitReverse .new)
  | expand pool quota =>
    match spec.validate with
    | .error fault => .error fault
    | .ok _ =>
      let grid := Grid.new spec (.step (.new 1 none none))
      .ok (.expand unique (Expand.clampQuota quota) (.new grid pool))
  | fibonacci => overGrid "FibonacciSequence" spec (.recurrence (.new .fibonacci unique spec))
  | padovan => overGrid "PadovanSequence" spec (.recurrence (.new .padovan unique spec))
  | head size _ => overGrid "HeadSequence" spec (.first (.new size.toNat))
  | weight function =>
    match s.check unique with
    | .error fault => .error fault
    | .ok _ =>
      match spec.validate with
      | .error fault => .error fault
      | .ok _ =>
        let owner := match spec with
          | .long .. => "LongToNumber"
          | .double .. => "DoubleToNumber"
        .ok (.weighted owner (.new (.new spec function)))
  | inverse function =>
    match s.check unique with
    | .error fault => .error fault
    | .ok _ =>
      match spec.validate with
      | .error fault => .error fault
      | .ok _ => .ok (.inverse (.new spec function))
  | itemWeight _ => .error .noNumbers
  | fixed list => .ok (.listed (Listed.new list.toArray))

/-- The strategy as a way to choose positions. -/
def distribution (s : Strategy) : Distribution NumberGen where
  name := s.name
  numbers := s.numbers
  machine := NumberGen.machine
  check unique := s.check unique
  openEnded := s.openEnded

/-- The generator that samples positions of the list of a source's values. -/
def sampleBy (s : Strategy) (source : Producer Value) (unique : Bool) : Producer Value :=
  ⟨Sample source.State NumberGen Value, Sample.machine source.machine s.distribution unique,
    .new source.state⟩

/-- The generator that redistributes the values of a source. -/
def applyTo (s : Strategy) (source : Producer Value) (unique : Bool) :
    Except Fault (Producer Value) :=
  match s with
  | expand pool quota =>
    .ok ⟨Expand source.State Value,
      Expand.machine source.machine unique (Expand.clampQuota quota), .new source.state pool⟩
  | head size _ => .ok ⟨Head source.State, Head.machine source.machine size.toNat, .new source.state⟩
  | itemWeight weigh =>
    if unique then .error .itemWeightUnique
    else .ok ⟨Individual source.State Value, Individual.machine source.machine weigh,
      .new source.state⟩
  | _ =>
    match s.check unique with
    | .error fault => .error fault
    | .ok _ => .ok (s.sampleBy source unique)

end Strategy
end SynthData
