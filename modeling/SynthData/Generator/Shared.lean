import SynthData.Generator.Machine

/-!
# One source for several consumers

A shared source is used through handles. Each handle has a phase of its own, and the source is
initialized by the first handle that is. A handle that is reset or closed leaves the source as it
is, so that no consumer rewinds or ends the stream of another one. Values are handed out in the
order in which the handles ask for them.
-/

namespace SynthData

/-- A source, and whether a handle has initialized it. -/
structure Shared (σ : Type) where
  source : σ
  initialized : Bool

namespace Shared

variable {σ α : Type} (m : Machine σ α)

/-- The name under which failures are reported. -/
def owner : String := "SharedGenerator"

/-- A source that no handle has initialized. -/
def new (source : σ) : Shared σ := ⟨source, false⟩

/-- Initializes a handle, and the source if it is the first one. Nothing happens when the handle
runs already. -/
def init (context : Context) (handle : Phase) (shared : Shared σ) (streams : Streams) :
    Except Fault Unit × Phase × Shared σ × Streams :=
  match handle with
  | .running => (.ok (), handle, shared, streams)
  | .closed => (.error (.notCreated owner .closed), handle, shared, streams)
  | .created =>
    if shared.initialized then (.ok (), .running, shared, streams)
    else
      match m.init context shared.source streams with
      | (.error fault, source, streams) => (.error fault, handle, ⟨source, false⟩, streams)
      | (.ok _, source, streams) => (.ok (), .running, ⟨source, true⟩, streams)

/-- The next value of the source, if the handle runs. -/
def generate (handle : Phase) (shared : Shared σ) : Except Fault (Option α) × Shared σ :=
  match handle.requireRunning owner with
  | .error fault => (.error fault, shared)
  | .ok _ =>
    match shared with
    | ⟨source, initialized⟩ =>
      let (answer, source) := m.generate source
      (answer, ⟨source, initialized⟩)

/-- Resets a handle: a new one is initialized, and for a running one there is nothing to do. -/
def reset (handle : Phase) (shared : Shared σ) (streams : Streams) :
    Except Fault Unit × Phase × Shared σ × Streams :=
  match handle with
  | .created =>
    let (context, streams) := streams.defaultContext
    init m context handle shared streams
  | .running => (.ok (), handle, shared, streams)
  | .closed => (.error (.alreadyClosed owner), handle, shared, streams)

/-- The generator that uses a shared source through its only handle. -/
def machine : Machine (Phase × Shared σ) α where
  init context s streams :=
    let (answer, handle, shared, streams) := init m context s.1 s.2 streams
    (answer, (handle, shared), streams)
  generate s :=
    match s with
    | (handle, shared) =>
      let (answer, shared) := generate m handle shared
      (answer, (handle, shared))
  reset s streams :=
    let (answer, handle, shared, streams) := reset m s.1 s.2 streams
    (answer, (handle, shared), streams)
  close s := (.closed, s.2)
  phase s := s.1
  threadSafe s := m.threadSafe s.2.source
  parallelizable s := m.parallelizable s.2.source

end Shared

/-- A shared source with all its handles, in the order in which they were made. -/
structure SharedHandles (σ : Type) where
  shared : Shared σ
  handles : Array Phase

namespace SharedHandles

variable {σ α : Type} (m : Machine σ α)

/-- A source with its first handle. -/
def new (source : σ) : SharedHandles σ := ⟨.new source, #[.created]⟩

/-- Makes another handle. It starts as a new one, whatever the others do. -/
def clone (s : SharedHandles σ) : SharedHandles σ :=
  { s with handles := s.handles.push .created }

/-- The phase of a handle; handles that were never made count as closed. -/
def phase (handle : Nat) (s : SharedHandles σ) : Phase :=
  s.handles.getD handle .closed

/-- The generator behind one of the handles. -/
def machine (handle : Nat) : Machine (SharedHandles σ) α where
  init context s streams :=
    let (answer, phase, shared, streams) := Shared.init m context (s.phase handle) s.shared streams
    (answer, ⟨shared, s.handles.setIfInBounds handle phase⟩, streams)
  generate s :=
    match s with
    | ⟨shared, handles⟩ =>
      let (answer, shared) := Shared.generate m (handles.getD handle .closed) shared
      (answer, ⟨shared, handles⟩)
  reset s streams :=
    let (answer, phase, shared, streams) := Shared.reset m (s.phase handle) s.shared streams
    (answer, ⟨shared, s.handles.setIfInBounds handle phase⟩, streams)
  close s := { s with handles := s.handles.setIfInBounds handle .closed }
  phase := phase handle
  threadSafe s := m.threadSafe s.shared.source
  parallelizable s := m.parallelizable s.shared.source

end SharedHandles
end SynthData
