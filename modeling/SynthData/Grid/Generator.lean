import SynthData.Generator.Machine
import SynthData.Grid.Spec
import SynthData.Random.Streams

/-!
# Numbers from a grid

A grid generator takes its numbers from a walk over the indices of a grid. More generally, a
distribution makes number generators for ranges.
-/

namespace SynthData

/-! ## Walks over grid indices

A walk visits indices of a grid one after the other. `IndexWalk` is a kind of walk whose states are
of type `ω`: how a pass over a grid begins and how it goes on. A walk draws what it needs from the
random stream that is handed to it.
-/

/-- A kind of walk. -/
structure IndexWalk (ω : Type) where
  /-- Begins a pass over the grid of a range. -/
  rewind : Spec → ω → Except Fault ω
  /-- The next index, or none when the pass is over. -/
  next : Rng → ω → Option Nat × ω × Rng

/-! ## Generators over a grid

A grid generator hands out the grid points of a range in the order of a walk over their indices.
-/

/-- A range and the walk over its grid. -/
structure Grid (ω : Type) where
  spec : Spec
  walk : ω
  rng : Option Rng
  phase : Phase

namespace Grid

variable {ω : Type}

/-- A grid generator that has not begun to walk. -/
def new (spec : Spec) (walk : ω) : Grid ω := ⟨spec, walk, none, .created⟩

/-- Checks the range, takes a random stream and begins a pass. -/
def init (owner : String) (kind : IndexWalk ω) (context : Context) (g : Grid ω)
    (streams : Streams) : Except Fault Unit × Grid ω × Streams :=
  match g.phase.requireCreated owner with
  | .error fault => (.error fault, g, streams)
  | .ok _ =>
    match g.spec.validate with
    | .error fault => (.error fault, g, streams)
    | .ok _ =>
      let (rng, streams) := streams.issue context
      match kind.rewind g.spec g.walk with
      | .error fault => (.error fault, g, streams)
      | .ok walk => (.ok (), ⟨g.spec, walk, some rng, .running⟩, streams)

/-- The point at the next index of the walk. -/
def emit (kind : IndexWalk ω) (g : Grid ω) : Option Number × Grid ω :=
  match g with
  | ⟨spec, walk, rng?, phase⟩ =>
    match rng? with
    | none => (none, ⟨spec, walk, none, phase⟩)
    | some rng =>
      let (index, walk, rng) := kind.next rng walk
      (index.map spec.valueAt, ⟨spec, walk, some rng, phase⟩)

/-- The generator of the grid points of a range, in the order of a walk. -/
def machine (owner : String) (kind : IndexWalk ω) : Machine (Grid ω) Number where
  init := init owner kind
  generate g :=
    match g.phase.requireRunning owner with
    | .error fault => (.error fault, g)
    | .ok _ =>
      let (number, g) := emit kind g
      (.ok number, g)
  reset g streams :=
    match g.phase with
    | .created =>
      let (context, streams) := streams.defaultContext
      init owner kind context g streams
    | .closed => (.error (.alreadyClosed owner), g, streams)
    | .running =>
      match kind.rewind g.spec g.walk with
      | .error fault => (.error fault, g, streams)
      | .ok walk => (.ok (), { g with walk := walk }, streams)
  close g := { g with phase := .closed }
  phase g := g.phase
  threadSafe _ := false
  parallelizable _ := true

end Grid

/-! ## Distributions

A distribution decides which points of a numeric range come in which order. It makes number
generators, whose states are of type `ν` and whose calls are those of `machine`.
-/

/-- A way to choose the points of a range. -/
structure Distribution (ν : Type) where
  name : String
  /-- A new generator of numbers from a range, with or without repetitions. -/
  numbers : Spec → (unique : Bool) → Except Fault ν
  machine : Machine ν Number
  /-- Refuses requests that can be served for no range. -/
  check : (unique : Bool) → Except Fault Unit
  /-- Whether the numbers go up from the least one and need no upper bound. -/
  openEnded : Bool

end SynthData
