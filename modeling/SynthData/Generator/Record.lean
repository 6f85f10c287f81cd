import SynthData.Generator.Machine
import SynthData.Value.Basic

/-!
# Records

A record generator asks the generator of each field for a value, in the order of the fields, and
hands the values out together. It runs out as soon as one of the fields does.

`Fields` lists the machines of named fields; the state of the whole is made of the states of its
parts.
-/

namespace SynthData

/-- Named fields with their machines, indexed by the type of their joint states. -/
inductive Fields : Type → Type 1 where
  | nil : Fields Unit
  | cons {σ τ : Type} (name : String) (machine : Machine σ Value) (rest : Fields τ) :
    Fields (σ × τ)

namespace Fields

/-- The names of the fields, in their order. -/
def names : {σ : Type} → Fields σ → List String
  | _, nil => []
  | _, cons name _ rest => name :: rest.names

/-- Initializes the fields one after the other, up to the first failure. -/
def init (context : Context) :
    {σ : Type} → Fields σ → σ → Streams → Except Fault Unit × σ × Streams
  | _, nil, s, streams => (.ok (), s, streams)
  | _, cons _ m rest, (s, states), streams =>
    match m.init context s streams with
    | (.error fault, s, streams) => (.error fault, (s, states), streams)
    | (.ok _, s, streams) =>
      let (answer, states, streams) := rest.init context states streams
      (answer, (s, states), streams)

/-- Asks the fields one after the other, up to the first one that fails or has run out. -/
def generate : {σ : Type} → Fields σ → σ → Except Fault (Option (List (String × Value))) × σ
  | _, nil, s => (.ok (some []), s)
  | _, cons name m rest, (s, states) =>
    match m.generate s with
    | (.error fault, s) => (.error fault, (s, states))
    | (.ok none, s) => (.ok none, (s, states))
    | (.ok (some v), s) =>
      match rest.generate states with
      | (.error fault, states) => (.error fault, (s, states))
      | (.ok none, states) => (.ok none, (s, states))
      | (.ok (some entries), states) => (.ok (some ((name, v) :: entries)), (s, states))

/-- Resets the fields one after the other, up to the first failure. -/
def reset : {σ : Type} → Fields σ → σ → Streams → Except Fault Unit × σ × Streams
  | _, nil, s, streams => (.ok (), s, streams)
  | _, cons _ m rest, (s, states), streams =>
    match m.reset s streams with
    | (.error fault, s, streams) => (.error fault, (s, states), streams)
    | (.ok _, s, streams) =>
      let (answer, states, streams) := rest.reset states streams
      (answer, (s, states), streams)

/-- Closes all fields. -/
def close : {σ : Type} → Fields σ → σ → σ
  | _, nil, s => s
  | _, cons _ m rest, (s, states) => (m.close s, rest.close states)

/-- Whether all fields may be called from several threads. -/
def threadSafe : {σ : Type} → Fields σ → σ → Bool
  | _, nil, _ => true
  | _, cons _ m rest, (s, states) => m.threadSafe s && rest.threadSafe states

/-- Whether all fields may be copied for several threads. -/
def parallelizable : {σ : Type} → Fields σ → σ → Bool
  | _, nil, _ => true
  | _, cons _ m rest, (s, states) => m.parallelizable s && rest.parallelizable states

end Fields

/-- The states of the fields of a record, and the phase of the whole. -/
structure Record (σ : Type) where
  states : σ
  phase : Phase

namespace Record

variable {σ : Type}

/-- The name under which failures are reported. -/
def owner : String := "RecordGenerator"

/-- A record generator over fields in the given states. -/
def new (states : σ) : Record σ := ⟨states, .created⟩

/-- Initializes all fields, and lets the record run once all of that has succeeded. -/
def init (fields : Fields σ) (context : Context) (r : Record σ) (streams : Streams) :
    Except Fault Unit × Record σ × Streams :=
  match r.phase.requireCreated owner with
  | .error fault => (.error fault, r, streams)
  | .ok _ =>
    match fields.init context r.states streams with
    | (.error fault, states, streams) => (.error fault, ⟨states, r.phase⟩, streams)
    | (.ok _, states, streams) => (.ok (), ⟨states, .running⟩, streams)

/-- The generator of records with one value of each field. -/
def machine (fields : Fields σ) : Machine (Record σ) Value where
  init := init fields
  generate r :=
    match r with
    | ⟨states, phase⟩ =>
      match phase.requireRunning owner with
      | .error fault => (.error fault, ⟨states, phase⟩)
      | .ok _ =>
        match fields.generate states with
        | (.error fault, states) => (.error fault, ⟨states, phase⟩)
        | (.ok entries, states) => (.ok (entries.map Value.ofEntries), ⟨states, phase⟩)
  reset r streams :=
    match r.phase with
    | .created =>
      let (context, streams) := streams.defaultContext
      init fields context r streams
    | .closed => (.error (.alreadyClosed owner), r, streams)
    | .running =>
      match fields.reset r.states streams with
      | (answer, states, streams) => (answer, ⟨states, r.phase⟩, streams)
  close r := ⟨fields.close r.states, .closed⟩
  phase r := r.phase
  threadSafe r := fields.threadSafe r.states
  parallelizable r := fields.parallelizable r.states

end Record

/-- Named generators as the fields of one record generator. -/
structure FieldList where
  State : Type
  fields : Fields State
  states : State

namespace FieldList

/-- The fields of a list of named generators. -/
def ofList : List (String × Producer Value) → FieldList
  | [] => ⟨Unit, .nil, ()⟩
  | (name, p) :: rest =>
    let tail := ofList rest
    ⟨p.State × tail.State, .cons name p.machine tail.fields, (p.state, tail.states)⟩

/-- The generator of records with the given fields. -/
def producer (list : FieldList) : Producer Value :=
  ⟨Record list.State, Record.machine list.fields, Record.new list.states⟩

end FieldList
end SynthData
