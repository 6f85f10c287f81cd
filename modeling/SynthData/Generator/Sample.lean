import SynthData.Generator.Machine
import SynthData.Grid.Generator

/-!
# Sampling by position

A sampler reads the first values of its source into memory, at most as many as the cache may hold,
and lets a distribution choose positions in that list. An empty list gives no values and a list of
one value gives that value, without the distribution.

A reset reads the source anew, with the context of the initialization. Nothing of the old list is
given up before all of the new one is in place.
-/

namespace SynthData

/-- How the next position is found. -/
inductive Chooser (ν α : Type) where
  /-- There is nothing to choose from. -/
  | nothing
  /-- There is a single value. -/
  | single (value : Leaf (Constant α))
  /-- The distribution chooses. -/
  | positions (numbers : ν)

/-- A source, the values read from it and the choice among them. -/
structure Sample (σ ν α : Type) where
  wrapped : Wrapped σ
  /-- The context of the initialization. -/
  context : Option Context
  values : Array α
  /-- Whether the source had more values than the cache may hold. -/
  truncated : Bool
  chooser : Chooser ν α

namespace Sample

variable {σ ν α : Type}

/-- The name under which failures are reported. -/
def owner : String := "IndexBasedSampleGeneratorProxy"

/-- A sampler that has read nothing. -/
def new (source : σ) : Sample σ ν α :=
  ⟨.new source, none, #[], false, .nothing⟩

/-- The choice among the values of a list, ready to run. -/
def choose (d : Distribution ν) (unique : Bool) (context : Context) (values : Array α)
    (streams : Streams) : Except Fault (Chooser ν α) × Streams :=
  match values.toList with
  | [] => (.ok .nothing, streams)
  | [value] =>
    let constant := if unique then Constant.single value else Constant.always value
    match Constant.machine.init context constant streams with
    | (.error fault, _, streams) => (.error fault, streams)
    | (.ok _, constant, streams) => (.ok (.single constant), streams)
  | _ =>
    match d.numbers (.indices values.size) unique with
    | .error fault => (.error fault, streams)
    | .ok numbers =>
      match d.machine.init context numbers streams with
      | (.error fault, _, streams) => (.error fault, streams)
      | (.ok _, numbers, streams) => (.ok (.positions numbers), streams)

/-- Reads the values of a running source and prepares the choice among them. -/
def materialize (m : Machine σ α) (d : Distribution ν) (unique : Bool) (context : Context)
    (s : Sample σ ν α) (streams : Streams) : Except Fault Unit × Sample σ ν α × Streams :=
  match m.readAhead context.settings.cacheSize s.wrapped.source with
  | (.error fault, source) =>
    (.error fault, { s with wrapped := ⟨source, s.wrapped.phase⟩ }, streams)
  | (.ok (values, truncated), source) =>
    match choose d unique context values streams with
    | (.error fault, streams) =>
      (.error fault, { s with wrapped := ⟨source, s.wrapped.phase⟩ }, streams)
    | (.ok chooser, streams) =>
      (.ok (), ⟨⟨source, s.wrapped.phase⟩, s.context, values, truncated, chooser⟩, streams)

/-- Initializes the source, keeps the context and reads the values. -/
def init (m : Machine σ α) (d : Distribution ν) (unique : Bool) (context : Context)
    (s : Sample σ ν α) (streams : Streams) : Except Fault Unit × Sample σ ν α × Streams :=
  match s.wrapped.init owner m context streams with
  | (.error fault, wrapped, streams) => (.error fault, { s with wrapped := wrapped }, streams)
  | (.ok _, wrapped, streams) =>
    materialize m d unique context { s with wrapped := wrapped, context := some context } streams

/-- The next value of a running sampler. -/
def emit (d : Distribution ν) (s : Sample σ ν α) : Except Fault (Option α) × Sample σ ν α :=
  match s with
  | ⟨wrapped, context, values, truncated, chooser⟩ =>
    match chooser with
    | .nothing => (.ok none, ⟨wrapped, context, values, truncated, .nothing⟩)
    | .single constant =>
      let (answer, constant) := Constant.machine.generate constant
      (answer, ⟨wrapped, context, values, truncated, .single constant⟩)
    | .positions numbers =>
      match d.machine.generate numbers with
      | (.error fault, numbers) =>
        (.error fault, ⟨wrapped, context, values, truncated, .positions numbers⟩)
      | (.ok none, numbers) =>
        (.ok none, ⟨wrapped, context, values, truncated, .positions numbers⟩)
      | (.ok (some number), numbers) =>
        let answer := match values[number.toIndex]? with
          | some v => .ok (some v)
          | none => .error (.positionOutside d.name number.toIndex values.size)
        (answer, ⟨wrapped, context, values, truncated, .positions numbers⟩)

/-- Closes the choice among the values. -/
def closeChooser (d : Distribution ν) : Chooser ν α → Chooser ν α
  | .nothing => .nothing
  | .single constant => .single (Constant.machine.close constant)
  | .positions numbers => .positions (d.machine.close numbers)

/-- The generator of the source's values at the positions that a distribution chooses. -/
def machine (m : Machine σ α) (d : Distribution ν) (unique : Bool) :
    Machine (Sample σ ν α) α where
  init := init m d unique
  generate s :=
    match s.wrapped.phase.requireRunning owner with
    | .error fault => (.error fault, s)
    | .ok _ => emit d s
  reset s streams :=
    match s.wrapped.phase with
    | .created =>
      let (context, streams) := streams.defaultContext
      init m d unique context s streams
    | _ =>
      match s.wrapped.reset owner m streams with
      | (.error fault, wrapped, streams) => (.error fault, { s with wrapped := wrapped }, streams)
      | (.ok _, wrapped, streams) =>
        let s := { s with wrapped := wrapped }
        match s.context with
        | some context => materialize m d unique context s streams
        | none =>
          let (context, streams) := streams.defaultContext
          materialize m d unique context s streams
  close s :=
    { s with
      wrapped := s.wrapped.close m
      values := #[]
      chooser := closeChooser d s.chooser }
  phase s := s.wrapped.phase
  threadSafe _ := false
  parallelizable s := m.parallelizable s.wrapped.source

end Sample
end SynthData
