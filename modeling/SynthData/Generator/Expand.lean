import SynthData.Generator.Machine

/-!
# Values in random order through a bounded pool

An expander reads its source into a pool of bounded size and hands out random members of the pool,
so it never holds more than the pool of a long or endless source.

With unique values a member leaves the pool when it is handed out, and the next value of the source
takes its place. Otherwise it stays with the probability of the duplication quota, and else is
replaced by a fresh value of the source; once the source has run out, the pool is drawn from for
ever.
-/

namespace SynthData

/-- A source with the values that wait to be handed out. -/
structure Expand (σ α : Type) where
  wrapped : Wrapped σ
  pool : Array α
  /-- The size up to which the pool is filled, once it is known. -/
  capacity : Option Nat
  depleted : Bool
  rng : Option Rng

namespace Expand

variable {σ α : Type}

/-- The name under which failures are reported. -/
def owner : String := "ExpandGeneratorProxy"

/-- An expander with a pool of a given size, or of the size that the settings ask for. -/
def new (source : σ) (capacity : Option Nat) : Expand σ α :=
  ⟨.new source, #[], capacity.map (max 1), false, none⟩

/-- A quota brought between zero and one. -/
def clampQuota (quota : Float) : Float :=
  if quota < 0 then 0 else if 1 < quota then 1 else quota

/-- The next value of the source, unless it is known to have run out. The answer's last part tells
whether the source is known to have run out now. -/
def pull (m : Machine σ α) (depleted : Bool) (wrapped : Wrapped σ) :
    Except Fault (Option α) × Wrapped σ × Bool :=
  if depleted then (.ok none, wrapped, true)
  else
    match wrapped with
    | ⟨source, phase⟩ =>
      match m.generate source with
      | (.error fault, source) => (.error fault, ⟨source, phase⟩, false)
      | (.ok none, source) => (.ok none, ⟨source, phase⟩, true)
      | (.ok (some v), source) => (.ok (some v), ⟨source, phase⟩, false)

/-- Reads up to `room` values into the pool. -/
def fill (m : Machine σ α) :
    (room : Nat) → Array α → Bool → Wrapped σ → Except Fault Unit × Array α × Bool × Wrapped σ
  | 0, pool, depleted, wrapped => (.ok (), pool, depleted, wrapped)
  | room + 1, pool, depleted, wrapped =>
    match pull m depleted wrapped with
    | (.error fault, wrapped, depleted) => (.error fault, pool, depleted, wrapped)
    | (.ok none, wrapped, depleted) => (.ok (), pool, depleted, wrapped)
    | (.ok (some v), wrapped, depleted) => fill m room (pool.push v) depleted wrapped

/-- Takes the member at a position out of the pool; the last member takes its place. -/
def takeOut (pool : Array α) (index : Nat) : Array α :=
  match pool.back? with
  | some last => (pool.setIfInBounds index last).pop
  | none => pool

/-- A pool of the given size from the settings; never an empty one. -/
def capacityFrom (context : Context) (capacity : Option Nat) : Option Nat :=
  some (capacity.getD (max 1 context.settings.expandPoolSize))

/-- Hands out the member at a position. With unique values it leaves the pool. Otherwise it stays if
it is to be kept, and else a fresh value of the source takes its place. -/
def handOut (m : Machine σ α) (unique : Bool) (index : Nat) (keep : Bool) (e : Expand σ α) :
    Except Fault (Option α) × Expand σ α :=
  match e with
  | ⟨wrapped, pool, capacity, depleted, rng⟩ =>
    let value := pool[index]?
    if unique then (.ok value, ⟨wrapped, takeOut pool index, capacity, depleted, rng⟩)
    else if keep then (.ok value, ⟨wrapped, pool, capacity, depleted, rng⟩)
    else
      match pull m depleted wrapped with
      | (.error fault, wrapped, depleted) =>
        (.error fault, ⟨wrapped, pool, capacity, depleted, rng⟩)
      | (.ok none, wrapped, depleted) => (.ok value, ⟨wrapped, pool, capacity, depleted, rng⟩)
      | (.ok (some fresh), wrapped, depleted) =>
        (.ok value, ⟨wrapped, pool.setIfInBounds index fresh, capacity, depleted, rng⟩)

/-- Fills the pool as far as the source and the capacity allow. -/
def refill (m : Machine σ α) (e : Expand σ α) : Except Fault Unit × Expand σ α :=
  match e with
  | ⟨wrapped, pool, capacity, depleted, rng⟩ =>
    match fill m (capacity.getD 1 - pool.size) pool depleted wrapped with
    | (answer, pool, depleted, wrapped) => (answer, ⟨wrapped, pool, capacity, depleted, rng⟩)

/-- What a running expander answers: it fills the pool, draws a position and, unless values are
unique, draws whether the member is kept. -/
def emit (m : Machine σ α) (unique : Bool) (quota : Float) (e : Expand σ α) :
    Except Fault (Option α) × Expand σ α :=
  match refill m e with
  | (.error fault, e) => (.error fault, e)
  | (.ok _, ⟨wrapped, pool, capacity, depleted, rng?⟩) =>
    if pool.isEmpty then (.ok none, ⟨wrapped, pool, capacity, depleted, rng?⟩)
    else
      match rng? with
      | none => (.ok none, ⟨wrapped, pool, capacity, depleted, none⟩)
      | some rng =>
        let (index, rng) := rng.below pool.size
        if unique then
          handOut m true index false ⟨wrapped, pool, capacity, depleted, some rng⟩
        else
          let (chance, rng) := rng.unit
          handOut m false index (chance < quota) ⟨wrapped, pool, capacity, depleted, some rng⟩

/-- The generator of random members of a bounded pool. A reset keeps the random stream. -/
def machine (m : Machine σ α) (unique : Bool) (quota : Float) : Machine (Expand σ α) α where
  init context e streams :=
    match e.wrapped.init owner m context streams with
    | (.error fault, wrapped, streams) => (.error fault, { e with wrapped := wrapped }, streams)
    | (.ok _, wrapped, streams) =>
      let (rng, streams) := streams.issue context
      (.ok (), ⟨wrapped, #[], capacityFrom context e.capacity, false, some rng⟩, streams)
  generate e :=
    match e.wrapped.phase.requireRunning owner with
    | .error fault => (.error fault, e)
    | .ok _ => emit m unique quota e
  reset e streams :=
    match e.wrapped.reset owner m streams with
    | (.error fault, wrapped, streams) => (.error fault, { e with wrapped := wrapped }, streams)
    | (.ok false, wrapped, streams) =>
      (.ok (), ⟨wrapped, #[], e.capacity, false, e.rng⟩, streams)
    | (.ok true, wrapped, streams) =>
      let (context, streams) := streams.defaultContext
      let (rng, streams) := streams.issue context
      (.ok (), ⟨wrapped, e.pool, capacityFrom context e.capacity, e.depleted, some rng⟩, streams)
  close e := { e with wrapped := e.wrapped.close m, pool := #[] }
  phase e := e.wrapped.phase
  threadSafe _ := false
  parallelizable e := m.parallelizable e.wrapped.source

end Expand
end SynthData
