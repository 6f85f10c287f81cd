import SynthData.Fault.Basic
import SynthData.Generator.Machine
import SynthData.Grid.Spec
import SynthData.Value.Basic
import SynthData.Weight.Table

/-!
# Grid points by weight

A weight function gives each number a weight, and a weighted generator draws the points of a grid
in proportion to their weights.
-/

namespace SynthData

/-! ## Weight functions

A weight function gives each number a weight. The families here are the ones that configurations
can name.
-/

/-- A weight for each number. -/
abbrev WeightFunction := Float → Float

namespace WeightFunction

/-- The same weight for every number. -/
def constant (value : Float) : WeightFunction := fun _ => value

/-- A weight that grows evenly. -/
def linear (offset slope : Float) : WeightFunction := fun x => offset + slope * x

/-- The ratio of a circle's circumference to its diameter. -/
def pi : Float := 3.14159265358979323846264338327950288

/-- The density of a normal distribution. -/
def gaussian (average deviation : Float) : Except Fault WeightFunction :=
  if 0 < deviation then
    .ok fun x =>
      let z := (x - average) / deviation
      (-0.5 * z * z).exp / (deviation * (2 * pi).sqrt)
  else .error (.deviationNotPositive deviation)

/-- A weight that grows or falls by the same factor over equal distances. -/
def exponential (scale rate : Float) : WeightFunction := fun x => scale * (rate * x).exp

/-- Given weights for given numbers, and the same weight for all others. Of several weights for one
number the first one counts. -/
def pointwise (weights : List (Float × Float)) (otherwise : Float) : WeightFunction := fun x =>
  match weights.find? fun entry => entry.1 == x with
  | some entry => entry.2
  | none => otherwise

end WeightFunction

/-- The weight of a record by one of its fields: the number that the field holds, and zero for
values without such a number. -/
def featureWeight (feature : String) (v : Value) : Float :=
  ((v.field? feature).bind Value.toFloat?).getD 0

/-! ## Weighted generators

A weighted generator weighs every point of a grid when it is initialized, and then draws points in
proportion to their weights. If all weights are zero it draws them evenly. Range and granularity can
be changed until then.
-/

/-- A range whose points are drawn by weight. -/
structure Weighted where
  spec : Spec
  weight : WeightFunction
  /-- The shares of the points, unless there is none. -/
  table : Option (Array Float)
  count : Nat
  rng : Option Rng
  phase : Phase

namespace Weighted

/-- The name under which failures are reported. -/
def owner : String := "WeightedNumberGenerator"

/-- The largest grid that is weighed. -/
def maxPoints : Nat := 10000000

/-- A weighted generator before its initialization. -/
def new (spec : Spec) (weight : WeightFunction) : Weighted :=
  ⟨spec, weight, none, 0, none, .created⟩

/-- Changes the range, as long as the generator has not been initialized. -/
def configure (property : String) (change : Spec → Spec) (w : Weighted) :
    Except Fault Weighted :=
  if w.phase = .created then .ok { w with spec := change w.spec } else .error (.frozen property)

/-- The weights of the first `count` grid points. -/
def weights (spec : Spec) (weight : WeightFunction) (count : Nat) : List Float :=
  (List.range count).map fun i => weight (spec.valueAt i).toFloat

/-- Checks the range, weighs its points and takes a random stream. -/
def init (context : Context) (w : Weighted) (streams : Streams) :
    Except Fault Unit × Weighted × Streams :=
  match w.phase.requireCreated owner with
  | .error fault => (.error fault, w, streams)
  | .ok _ =>
    match w.spec.validate with
    | .error fault => (.error fault, w, streams)
    | .ok _ =>
      let count := w.spec.sampleCount
      if maxPoints < count then
        (.error (.tableTooLarge w.spec.min w.spec.max w.spec.granularity count maxPoints), w,
          streams)
      else
        match weightTable (weights w.spec w.weight count) with
        | .error fault => (.error fault, w, streams)
        | .ok table =>
          let (rng, streams) := streams.issue context
          (.ok (), ⟨w.spec, w.weight, table, count, some rng, .running⟩, streams)

/-- A point by its weight. -/
def emit (w : Weighted) : Option Number × Weighted :=
  match w.rng with
  | none => (none, w)
  | some rng =>
    match w.table with
    | some table =>
      let (draw, rng) := rng.unit
      (some (w.spec.valueAt (Weighing.lowerBound table draw)), { w with rng := some rng })
    | none =>
      let (index, rng) := rng.below w.count
      (some (w.spec.valueAt index), { w with rng := some rng })

/-- The generator of grid points by weight. A reset changes nothing: draws go on. -/
def machine : Machine Weighted Number where
  init := init
  generate w :=
    match w.phase.requireRunning owner with
    | .error fault => (.error fault, w)
    | .ok _ =>
      let (number, w) := emit w
      (.ok number, w)
  reset w streams :=
    match w.phase with
    | .created =>
      let (context, streams) := streams.defaultContext
      init context w streams
    | .closed => (.error (.alreadyClosed owner), w, streams)
    | .running => (.ok (), w, streams)
  close w := { w with table := none, phase := .closed }
  phase w := w.phase
  threadSafe _ := false
  parallelizable _ := true

end Weighted

end SynthData
