import SynthData.Fault.Basic
import SynthData.Random.Streams

/-!
# Generators as machines

A generator is a machine that hands out values one at a time. It is described by a `Machine` over a
type of states: what each call answers and which state it leaves. A call that fails leaves a state
too, because parts of a composed generator may have moved on before another part failed.

* `init` makes a created generator run, with the settings and the random streams of a context;
* `generate` gives the next value, or none when the generator has run out for now;
* `reset` starts over, and initializes a generator that was never initialized;
* `close` ends its life.

Generators are composed by building a machine from the machine of the source. A `Producer` is a
machine together with its present state; the type of the states is hidden.
-/

namespace SynthData

/-- The calls of a generator whose states are of type `σ` and whose values are of type `α`. -/
structure Machine (σ : Type) (α : Type) where
  init : Context → σ → Streams → Except Fault Unit × σ × Streams
  generate : σ → Except Fault (Option α) × σ
  reset : σ → Streams → Except Fault Unit × σ × Streams
  close : σ → σ
  phase : σ → Phase
  /-- Whether one generator may be called from several threads at once. -/
  threadSafe : σ → Bool
  /-- Whether each of several threads may have a copy of the generator. -/
  parallelizable : σ → Bool

/-- A generator: a machine and its present state. -/
structure Producer (α : Type) where
  State : Type
  machine : Machine State α
  state : State

/-- The context of a generator that is reset before it was ever initialized: new, and with default
settings. -/
def Streams.defaultContext (streams : Streams) : Context × Streams :=
  streams.newContext {}

namespace Machine

variable {σ α : Type} (m : Machine σ α)

/-- Reads values until there is none, but at most `limit`; they are added to `values`. -/
def drainInto (values : Array α) : (limit : Nat) → σ → Except Fault (Array α) × σ
  | 0, s => (.ok values, s)
  | limit + 1, s =>
    match m.generate s with
    | (.error fault, s) => (.error fault, s)
    | (.ok none, s) => (.ok values, s)
    | (.ok (some v), s) => drainInto (values.push v) limit s

/-- More values than any memory holds. -/
def boundless : Nat := UInt64.size

/-- The remaining values of a running generator, at most `limit` of them if a limit is given. -/
def drain (limit : Option Nat) (s : σ) : Except Fault (Array α) × σ :=
  m.drainInto #[] (limit.getD boundless) s

/-- Reads at most `limit` values in advance, and tells whether there was another one. -/
def readAhead (limit : Nat) (s : σ) : Except Fault (Array α × Bool) × σ :=
  match m.drainInto #[] limit s with
  | (.error fault, s) => (.error fault, s)
  | (.ok values, s) =>
    if values.size = limit then
      match m.generate s with
      | (.error fault, s) => (.error fault, s)
      | (.ok next, s) => (.ok (values, next.isSome), s)
    else (.ok (values, false), s)

end Machine

/-! ## Generators over fixed data

A leaf has no source. It is given by a cursor over its data: how the cursor is put at the beginning
and how it moves on. Three kinds of leaves are built on this: one value for ever or once per pass
(`Constant`), the values of a list in order (`Listed`), and the values of an iterator that is made
anew for every pass (`Iterated`).
-/

/-- A cursor with the phase of the generator that owns it. -/
structure Leaf (κ : Type) where
  cursor : κ
  phase : Phase

namespace Leaf

variable {κ α : Type}

/-- The leaf before its first initialization. -/
def new (cursor : κ) : Leaf κ := ⟨cursor, .created⟩

/-- The generator that moves a cursor over fixed data. -/
def machine (owner : String) (start : κ → κ) (next : κ → Option α × κ) (threadSafe : κ → Bool) :
    Machine (Leaf κ) α where
  init _ leaf streams :=
    match leaf.phase.requireCreated owner with
    | .error fault => (.error fault, leaf, streams)
    | .ok _ => (.ok (), ⟨start leaf.cursor, .running⟩, streams)
  generate leaf :=
    match leaf with
    | ⟨cursor, phase⟩ =>
      match phase.requireRunning owner with
      | .error fault => (.error fault, ⟨cursor, phase⟩)
      | .ok _ =>
        let (value, cursor) := next cursor
        (.ok value, ⟨cursor, phase⟩)
  reset leaf streams :=
    match leaf.phase with
    | .closed => (.error (.alreadyClosed owner), leaf, streams)
    | _ => (.ok (), ⟨start leaf.cursor, .running⟩, streams)
  close leaf := { leaf with phase := .closed }
  phase leaf := leaf.phase
  threadSafe leaf := threadSafe leaf.cursor
  parallelizable _ := true

end Leaf

/-- One value, for ever or once per pass. -/
structure Constant (α : Type) where
  value : α
  once : Bool
  emitted : Bool

namespace Constant

variable {α : Type}

/-- The value for ever. -/
def always (value : α) : Leaf (Constant α) := .new ⟨value, false, false⟩

/-- The value once per pass. -/
def single (value : α) : Leaf (Constant α) := .new ⟨value, true, false⟩

/-- The value, unless it was due only once and has been handed out. -/
def next (c : Constant α) : Option α × Constant α :=
  if c.once && c.emitted then (none, c) else (some c.value, { c with emitted := true })

/-- The generator of a single value. -/
def machine : Machine (Leaf (Constant α)) α :=
  Leaf.machine "ConstantGenerator" (fun c => { c with emitted := false }) next
    (fun c => !c.once)

end Constant

/-- The values of a list, and how many of them have been handed out. -/
structure Listed (α : Type) where
  values : Array α
  position : Nat

namespace Listed

variable {α : Type}

/-- The list from its beginning. -/
def new (values : Array α) : Leaf (Listed α) := .new ⟨values, 0⟩

/-- The next value of the list. -/
def next (l : Listed α) : Option α × Listed α :=
  match l.values[l.position]? with
  | some v => (some v, { l with position := l.position + 1 })
  | none => (none, l)

/-- The generator of the values of a list, in order. -/
def machine : Machine (Leaf (Listed α)) α :=
  Leaf.machine "ListGenerator" (fun l => { l with position := 0 }) next (fun _ => false)

end Listed

/-- A pass of an iterator, and how often it has been asked. -/
structure Iterated where
  passes : Nat
  asked : Nat

namespace Iterated

variable {α : Type}

/-- No pass yet. -/
def new : Leaf Iterated := .new ⟨0, 0⟩

/-- The generator of the answers of an iterator: `values p i` is what the iterator of pass `p`
answers when it is asked for the `i`-th time. Passes are counted from zero, and each
initialization or reset begins one. -/
def machine (values : Nat → Nat → Option α) : Machine (Leaf Iterated) α :=
  Leaf.machine "IteratorGenerator" (fun i => ⟨i.passes + 1, 0⟩)
    (fun i => (values (i.passes - 1) i.asked, { i with asked := i.asked + 1 })) (fun _ => false)

end Iterated

/-! ## Generators over a source

A generator that works on the values of another one owns that source together with a phase of its
own. Its calls reach the source only when its own phase allows them, and its phase changes only
after the source's call has succeeded. `Mapped` is the simplest such generator: it changes each
value by a function.
-/

/-- A source and the phase of the generator that owns it. -/
structure Wrapped (σ : Type) where
  source : σ
  phase : Phase

namespace Wrapped

variable {σ α : Type} (owner : String) (m : Machine σ α)

/-- The source in the hands of a new owner. -/
def new (source : σ) : Wrapped σ := ⟨source, .created⟩

/-- Initializes the source, and lets the owner run once that has succeeded. -/
def init (context : Context) (w : Wrapped σ) (streams : Streams) :
    Except Fault Unit × Wrapped σ × Streams :=
  match w.phase.requireCreated owner with
  | .error fault => (.error fault, w, streams)
  | .ok _ =>
    match m.init context w.source streams with
    | (.error fault, source, streams) => (.error fault, ⟨source, w.phase⟩, streams)
    | (.ok _, source, streams) => (.ok (), ⟨source, .running⟩, streams)

/-- The next value of the source, if the owner runs. -/
def generate (w : Wrapped σ) : Except Fault (Option α) × Wrapped σ :=
  match w with
  | ⟨source, phase⟩ =>
    match phase.requireRunning owner with
    | .error fault => (.error fault, ⟨source, phase⟩)
    | .ok _ =>
      let (answer, source) := m.generate source
      (answer, ⟨source, phase⟩)

/-- Resets the source. An owner that was never initialized is initialized instead, and the answer
tells so. -/
def reset (w : Wrapped σ) (streams : Streams) : Except Fault Bool × Wrapped σ × Streams :=
  match w.phase with
  | .closed => (.error (.alreadyClosed owner), w, streams)
  | .created =>
    let (context, streams) := streams.defaultContext
    match w.init owner m context streams with
    | (.error fault, w, streams) => (.error fault, w, streams)
    | (.ok _, w, streams) => (.ok true, w, streams)
  | .running =>
    match m.reset w.source streams with
    | (.error fault, source, streams) => (.error fault, ⟨source, w.phase⟩, streams)
    | (.ok _, source, streams) => (.ok false, ⟨source, w.phase⟩, streams)

/-- Closes the source and its owner. -/
def close (w : Wrapped σ) : Wrapped σ := ⟨m.close w.source, .closed⟩

end Wrapped

namespace Mapped

variable {σ α β : Type}

/-- The generator of the source's values, each changed by a function. -/
def machine (owner : String) (m : Machine σ α) (f : α → β) : Machine (Wrapped σ) β where
  init := Wrapped.init owner m
  generate w :=
    match w.generate owner m with
    | (.error fault, w) => (.error fault, w)
    | (.ok value, w) => (.ok (value.map f), w)
  reset w streams :=
    match w.reset owner m streams with
    | (.error fault, w, streams) => (.error fault, w, streams)
    | (.ok _, w, streams) => (.ok (), w, streams)
  close := Wrapped.close m
  phase w := w.phase
  threadSafe w := m.threadSafe w.source
  parallelizable w := m.parallelizable w.source

end Mapped

end SynthData
