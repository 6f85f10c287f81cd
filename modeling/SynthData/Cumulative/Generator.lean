import SynthData.Fault.Basic
import SynthData.Generator.Machine
import SynthData.Grid.Spec

/-!
# Numbers by an inverse distribution function

Cumulative distribution functions and the generators that draw numbers by their inverse.
-/

namespace SynthData

/-! ## Cumulative distribution functions

A cumulative distribution function with its inverse. The families here are the ones that
configurations can name.
-/

/-- A cumulative distribution function and its inverse. -/
structure CumulativeFunction where
  /-- The probability of a number that is at most the given one. -/
  probability : Float → Float
  /-- The number up to which the given probability lies. -/
  inverse : Float → Float

namespace CumulativeFunction

/-- The exponential distribution with a rate. -/
def exponential (rate : Float) : Except Fault CumulativeFunction :=
  if !(0 < rate) || !rate.isFinite then .error (.rateNotPositive rate)
  else .ok
    { probability := fun x => if x ≤ 0 then 0 else 1 - (-rate * x).exp
      inverse := fun p => -(1 - p).log / rate }

/-- The Pareto distribution with a least value and a tail index. -/
def pareto (scale shape : Float) : Except Fault CumulativeFunction :=
  if !(0 < scale) || !(0 < shape) || !scale.isFinite || !shape.isFinite then
    .error (.paretoNotPositive scale shape)
  else .ok
    { probability := fun x => if x ≤ scale then 0 else 1 - (scale / x).pow shape
      inverse := fun p => scale / (1 - p).pow (1 / shape) }

end CumulativeFunction

/-! ## Generators

A generator of this kind draws a probability between those of the least number and of the end of the
last grid cell, takes the number that the inverse function gives for it, and moves it down to the
grid. Numbers outside the range are brought to its nearest end.
-/

/-- A range and a distribution function over it. -/
structure Inverse where
  spec : Spec
  function : CumulativeFunction
  /-- The probability of the least number. -/
  minProbability : Float
  /-- The probability of the range. -/
  mass : Float
  rng : Option Rng
  phase : Phase

namespace Inverse

/-- The name under which failures are reported. -/
def owner : String := "CdfGenerator"

/-- A generator before its initialization. -/
def new (spec : Spec) (function : CumulativeFunction) : Inverse :=
  ⟨spec, function, 0, 0, none, .created⟩

/-- The grid point at or below a number that is brought into the range first; the least point for
what is not a number. -/
def snap (spec : Spec) (x : Float) : Number :=
  let min := spec.min.toFloat
  let max := spec.max.toFloat
  let x := if x < min then min else x
  let x := if max < x then max else x
  match spec.floorIndex? x with
  | some index => spec.valueAt index
  | none => spec.min

/-- Checks the range and its probability, and takes a random stream. -/
def init (context : Context) (g : Inverse) (streams : Streams) :
    Except Fault Unit × Inverse × Streams :=
  match g.phase.requireCreated owner with
  | .error fault => (.error fault, g, streams)
  | .ok _ =>
    match g.spec.validate with
    | .error fault => (.error fault, g, streams)
    | .ok _ =>
      let upper := g.spec.max.toFloat + g.spec.granularity.toFloat
      let least := g.function.probability g.spec.min.toFloat
      let mass := g.function.probability upper - least
      let g := { g with minProbability := least, mass := mass }
      if 0 < mass then
        let (rng, streams) := streams.issue context
        (.ok (), { g with rng := some rng, phase := .running }, streams)
      else (.error (.noProbabilityMass g.spec.min g.spec.max), g, streams)

/-- A number of the distribution. -/
def emit (g : Inverse) : Option Number × Inverse :=
  match g.rng with
  | none => (none, g)
  | some rng =>
    let (draw, rng) := rng.unit
    (some (snap g.spec (g.function.inverse (g.minProbability + draw * g.mass))),
      { g with rng := some rng })

/-- The generator of numbers by an inverse distribution function. A reset changes nothing: draws go
on. -/
def machine : Machine Inverse Number where
  init := init
  generate g :=
    match g.phase.requireRunning owner with
    | .error fault => (.error fault, g)
    | .ok _ =>
      let (number, g) := emit g
      (.ok number, g)
  reset g streams :=
    match g.phase with
    | .created =>
      let (context, streams) := streams.defaultContext
      init context g streams
    | .closed => (.error (.alreadyClosed owner), g, streams)
    | .running => (.ok (), g, streams)
  close g := { g with phase := .closed }
  phase g := g.phase
  threadSafe _ := false
  parallelizable _ := true

end Inverse

end SynthData
