import SynthData.Cumulative.Generator
import SynthData.Generator.Expand
import SynthData.Generator.Machine
import SynthData.Grid.Generator
import SynthData.Walk.Basic
import SynthData.Weight.Generator

/-!
# The number generators of the built-in strategies

`NumberGen` is a number generator of any of the built-in kinds, in any state. `NumberGen.machine`
hands each call on to the machine of its kind.
-/

namespace SynthData

/-- A number generator of one of the built-in kinds. -/
inductive NumberGen where
  /-- Grid points in the order of a walk, with the name under which failures are reported. -/
  | grid (owner : String) (g : Grid Walk)
  /-- Grid points from the least one on, in random order through a pool. -/
  | expand (unique : Bool) (quota : Float) (e : Expand (Grid Walk) Number)
  /-- Grid points by weight, with the name under which failures are reported. -/
  | weighted (owner : String) (w : Wrapped Weighted)
  /-- Numbers by an inverse distribution function. -/
  | inverse (g : Inverse)
  /-- Given numbers in their order. -/
  | listed (l : Leaf (Listed Number))

namespace NumberGen

/-- The machine of a walk over a grid. -/
def gridMachine (owner : String) : Machine (Grid Walk) Number :=
  Grid.machine owner Walk.kind

/-- The name under which failures of equal steps are reported. -/
def stepOwner : String := "StepSequence"

/-- The machine of a pool that is filled from a grid. -/
def expandMachine (unique : Bool) (quota : Float) : Machine (Expand (Grid Walk) Number) Number :=
  Expand.machine (gridMachine stepOwner) unique quota

/-- The machine of a weighted grid whose failures are reported under another name. -/
def weightedMachine (owner : String) : Machine (Wrapped Weighted) Number :=
  Mapped.machine owner Weighted.machine id

/-- The state that a call leaves, as a number generator. -/
def left {σ β : Type} (wrap : σ → NumberGen) (result : Except Fault β × σ) :
    Except Fault β × NumberGen :=
  (result.1, wrap result.2)

/-- The state that a call with streams leaves, as a number generator. -/
def leftWith {σ : Type} (wrap : σ → NumberGen) (result : Except Fault Unit × σ × Streams) :
    Except Fault Unit × NumberGen × Streams :=
  (result.1, wrap result.2.1, result.2.2)

/-- Initializes a number generator. -/
def init (context : Context) (g : NumberGen) (streams : Streams) :
    Except Fault Unit × NumberGen × Streams :=
  match g with
  | grid owner g => leftWith (grid owner) ((gridMachine owner).init context g streams)
  | expand unique quota e =>
    leftWith (expand unique quota) ((expandMachine unique quota).init context e streams)
  | weighted owner w => leftWith (weighted owner) ((weightedMachine owner).init context w streams)
  | inverse g => leftWith inverse (Inverse.machine.init context g streams)
  | listed l => leftWith listed (Listed.machine.init context l streams)

/-- The next number. -/
def generate (g : NumberGen) : Except Fault (Option Number) × NumberGen :=
  match g with
  | grid owner g => left (grid owner) ((gridMachine owner).generate g)
  | expand unique quota e =>
    left (expand unique quota) ((expandMachine unique quota).generate e)
  | weighted owner w => left (weighted owner) ((weightedMachine owner).generate w)
  | inverse g => left inverse (Inverse.machine.generate g)
  | listed l => left listed (Listed.machine.generate l)

/-- Starts over. -/
def reset (g : NumberGen) (streams : Streams) : Except Fault Unit × NumberGen × Streams :=
  match g with
  | grid owner g => leftWith (grid owner) ((gridMachine owner).reset g streams)
  | expand unique quota e =>
    leftWith (expand unique quota) ((expandMachine unique quota).reset e streams)
  | weighted owner w => leftWith (weighted owner) ((weightedMachine owner).reset w streams)
  | inverse g => leftWith inverse (Inverse.machine.reset g streams)
  | listed l => leftWith listed (Listed.machine.reset l streams)

/-- Ends the life of a number generator. -/
def close : NumberGen → NumberGen
  | grid owner g => grid owner ((gridMachine owner).close g)
  | expand unique quota e => expand unique quota ((expandMachine unique quota).close e)
  | weighted owner w => weighted owner ((weightedMachine owner).close w)
  | inverse g => inverse (Inverse.machine.close g)
  | listed l => listed (Listed.machine.close l)

/-- Where a number generator is in its life. -/
def phase : NumberGen → Phase
  | grid owner g => (gridMachine owner).phase g
  | expand unique quota e => (expandMachine unique quota).phase e
  | weighted owner w => (weightedMachine owner).phase w
  | inverse g => Inverse.machine.phase g
  | listed l => Listed.machine.phase l

/-- Whether a number generator may be called from several threads. -/
def threadSafe : NumberGen → Bool
  | grid owner g => (gridMachine owner).threadSafe g
  | expand unique quota e => (expandMachine unique quota).threadSafe e
  | weighted owner w => (weightedMachine owner).threadSafe w
  | inverse g => Inverse.machine.threadSafe g
  | listed l => Listed.machine.threadSafe l

/-- Whether a number generator may be copied for several threads. -/
def parallelizable : NumberGen → Bool
  | grid owner g => (gridMachine owner).parallelizable g
  | expand unique quota e => (expandMachine unique quota).parallelizable e
  | weighted owner w => (weightedMachine owner).parallelizable w
  | inverse g => Inverse.machine.parallelizable g
  | listed l => Listed.machine.parallelizable l

/-- The machine of number generators of any kind. -/
def machine : Machine NumberGen Number :=
  { init, generate, reset, close, phase, threadSafe, parallelizable }

end NumberGen
end SynthData
