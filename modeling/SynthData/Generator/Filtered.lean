import Std.Data.HashSet
import SynthData.Generator.Machine

/-!
# Generators that pass on some values of a source

Both kinds hand the values of their source on in the order in which they come, and leave some of
them out.
-/

namespace SynthData

/-! ## The first values

A head passes on a fixed number of values of each pass and then runs out, without reading the
source any further.
-/

/-- A source and how many of its values have been passed on. -/
structure Head (σ : Type) where
  wrapped : Wrapped σ
  emitted : Nat

namespace Head

variable {σ α : Type}

/-- The name under which failures are reported. -/
def owner : String := "HeadGenerator"

/-- The head of a source. -/
def new (source : σ) : Head σ := ⟨.new source, 0⟩

/-- The generator of the first `size` values of a source. A reset forgets the count before it
reaches the source. -/
def machine (m : Machine σ α) (size : Nat) : Machine (Head σ) α where
  init context head streams :=
    match head.wrapped.init owner m context streams with
    | (.error fault, wrapped, streams) => (.error fault, ⟨wrapped, head.emitted⟩, streams)
    | (.ok _, wrapped, streams) => (.ok (), ⟨wrapped, 0⟩, streams)
  generate head :=
    match head with
    | ⟨wrapped, emitted⟩ =>
      match wrapped.phase.requireRunning owner with
      | .error fault => (.error fault, ⟨wrapped, emitted⟩)
      | .ok _ =>
        if size ≤ emitted then (.ok none, ⟨wrapped, emitted⟩)
        else
          match wrapped.generate owner m with
          | (.ok (some v), wrapped) => (.ok (some v), ⟨wrapped, emitted + 1⟩)
          | (answer, wrapped) => (answer, ⟨wrapped, emitted⟩)
  reset head streams :=
    match head.wrapped.reset owner m streams with
    | (.error fault, wrapped, streams) => (.error fault, ⟨wrapped, 0⟩, streams)
    | (.ok _, wrapped, streams) => (.ok (), ⟨wrapped, 0⟩, streams)
  close head := { head with wrapped := head.wrapped.close m }
  phase head := head.wrapped.phase
  threadSafe _ := false
  parallelizable head := m.parallelizable head.wrapped.source

end Head

/-! ## Values that were not there before

A unique generator passes a value on only if no equal one was passed on in the same pass, and reads
its source until it finds one. A limit on the number of repeated values in a row keeps it from
reading for ever: it fails when the limit is reached.
-/

/-- A source and the values that have been passed on. -/
structure Unique (σ α : Type) [BEq α] [Hashable α] where
  wrapped : Wrapped σ
  seen : Std.HashSet α
  /-- The number of repeated values in a row that is a failure. -/
  limit : Nat

namespace Unique

variable {σ α : Type} [BEq α] [Hashable α]

/-- The name under which failures are reported. -/
def owner : String := "UniqueValidatingGenerator"

/-- The limit that follows from the number of repeats that call for a warning and the number that
calls for a failure. -/
def limitOf (warn fail : Nat) : Nat := max fail warn

/-- The limit of the settings. -/
def settingsLimit (settings : Settings) : Nat :=
  limitOf settings.uniqueWarnThreshold settings.uniqueErrorThreshold

/-- A unique generator over a source. Its limit comes from the settings if none is given. -/
def new (source : σ) (limit : Option Nat) : Unique σ α :=
  ⟨.new source, ∅, limit.getD (settingsLimit {})⟩

/-- Reads the source until there is a new value. After `chances` more repeated values, the next one
is a failure. -/
def seek (m : Machine σ α) (limit : Nat) :
    (chances : Nat) → Std.HashSet α → Wrapped σ →
      Except Fault (Option α) × Std.HashSet α × Wrapped σ
  | chances, seen, wrapped =>
    match wrapped.generate owner m with
    | (.error fault, wrapped) => (.error fault, seen, wrapped)
    | (.ok none, wrapped) => (.ok none, seen, wrapped)
    | (.ok (some v), wrapped) =>
      if seen.contains v then
        match chances with
        | 0 => (.error (.repeatedValues (max 1 limit) seen.size), seen, wrapped)
        | chances + 1 => seek m limit chances seen wrapped
      else (.ok (some v), seen.insert v, wrapped)

/-- The generator of the first occurrences of a source's values. A limit that is given explicitly
stays; otherwise an initialization takes it from the settings, before anything else. -/
def machine (m : Machine σ α) (explicit : Bool) : Machine (Unique σ α) α where
  init context u streams :=
    let limit := if explicit then u.limit else settingsLimit context.settings
    match u.wrapped.init owner m context streams with
    | (answer, wrapped, streams) => (answer, ⟨wrapped, u.seen, limit⟩, streams)
  generate u :=
    match u with
    | ⟨wrapped, seen, limit⟩ =>
      match seek m limit (limit - 1) seen wrapped with
      | (answer, seen, wrapped) => (answer, ⟨wrapped, seen, limit⟩)
  reset u streams :=
    match u.wrapped.reset owner m streams with
    | (.error fault, wrapped, streams) => (.error fault, ⟨wrapped, ∅, u.limit⟩, streams)
    | (.ok _, wrapped, streams) => (.ok (), ⟨wrapped, ∅, u.limit⟩, streams)
  close u := ⟨u.wrapped.close m, ∅, u.limit⟩
  phase u := u.wrapped.phase
  threadSafe _ := false
  parallelizable _ := false

end Unique

end SynthData
