import SynthData.Generator.Machine
import SynthData.Weight.Table

/-!
# Items by their own weights

The values of a source are read into memory, at most as many as the cache may hold, and drawn in
proportion to a weight that each of them has. A reset reads the source anew, with the context of the
initialization, and gives nothing of the old list up before all of the new one is in place.
-/

namespace SynthData

/-- Items with the table of their shares. -/
structure WeightedItems (α : Type) where
  items : Array α
  table : Array Float

/-- A source and the items read from it. -/
structure Individual (σ α : Type) where
  wrapped : Wrapped σ
  /-- The context of the initialization. -/
  context : Option Context
  sample : Option (WeightedItems α)
  rng : Option Rng
  /-- Whether the source had more values than the cache may hold. -/
  truncated : Bool

namespace Individual

variable {σ α : Type}

/-- The name under which failures are reported. -/
def owner : String := "IndividualWeightGenerator"

/-- A generator that has read nothing. -/
def new (source : σ) : Individual σ α :=
  ⟨.new source, none, none, none, false⟩

/-- The items with their shares, if there are any items. Their total weight must not be zero. -/
def weigh (weight : α → Float) (items : Array α) : Except Fault (Option (WeightedItems α)) :=
  if items.isEmpty then .ok none
  else
    match weightTable (items.toList.map weight) with
    | .error fault => .error fault
    | .ok none => .error (.zeroTotalWeight items.size)
    | .ok (some table) => .ok (some ⟨items, table⟩)

/-- Reads and weighs the values of a running source, and takes a random stream. -/
def materialize (m : Machine σ α) (weight : α → Float) (context : Context) (g : Individual σ α)
    (streams : Streams) : Except Fault Unit × Individual σ α × Streams :=
  match m.readAhead context.settings.cacheSize g.wrapped.source with
  | (.error fault, source) =>
    (.error fault, { g with wrapped := ⟨source, g.wrapped.phase⟩ }, streams)
  | (.ok (items, truncated), source) =>
    match weigh weight items with
    | .error fault => (.error fault, { g with wrapped := ⟨source, g.wrapped.phase⟩ }, streams)
    | .ok sample =>
      let (rng, streams) := streams.issue context
      (.ok (), ⟨⟨source, g.wrapped.phase⟩, g.context, sample, some rng, truncated⟩, streams)

/-- Initializes the source, keeps the context and reads the values. -/
def init (m : Machine σ α) (weight : α → Float) (context : Context) (g : Individual σ α)
    (streams : Streams) : Except Fault Unit × Individual σ α × Streams :=
  match g.wrapped.init owner m context streams with
  | (.error fault, wrapped, streams) => (.error fault, { g with wrapped := wrapped }, streams)
  | (.ok _, wrapped, streams) =>
    materialize m weight context { g with wrapped := wrapped, context := some context } streams

/-- An item by its weight. -/
def emit (g : Individual σ α) : Option α × Individual σ α :=
  match g.sample, g.rng with
  | some sample, some rng =>
    let (draw, rng) := rng.unit
    (sample.items[Weighing.lowerBound sample.table draw]?, { g with rng := some rng })
  | _, _ => (none, g)

/-- The generator of a source's values by their own weights. -/
def machine (m : Machine σ α) (weight : α → Float) : Machine (Individual σ α) α where
  init := init m weight
  generate g :=
    match g.wrapped.phase.requireRunning owner with
    | .error fault => (.error fault, g)
    | .ok _ =>
      let (value, g) := emit g
      (.ok value, g)
  reset g streams :=
    match g.wrapped.phase with
    | .created =>
      let (context, streams) := streams.defaultContext
      init m weight context g streams
    | _ =>
      match g.wrapped.reset owner m streams with
      | (.error fault, wrapped, streams) => (.error fault, { g with wrapped := wrapped }, streams)
      | (.ok _, wrapped, streams) =>
        let g := { g with wrapped := wrapped }
        match g.context with
        | some context => materialize m weight context g streams
        | none =>
          let (context, streams) := streams.defaultContext
          materialize m weight context g streams
  close g := { g with wrapped := g.wrapped.close m, sample := none }
  phase g := g.wrapped.phase
  threadSafe _ := false
  parallelizable g := m.parallelizable g.wrapped.source

end Individual
end SynthData
