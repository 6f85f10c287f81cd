import SynthData.Proofs.Generator.Expand
import SynthData.Proofs.Guarded.Operations

/-!
# Machines whose calls may be broken off

A `GuardedMachine` has the calls of a machine, each of which may meet a trap.  It
`Follows` a machine under an invariant if no call from a state within it is broken
off and all calls do what the machine does.  Then no run is broken off, whatever
is called in which order (`Follows.run`).

A generator over a source meets the traps of its source.  An expander meets traps
of its own as well: it draws positions of its pool, which must have some, and
takes or replaces the members at them.
-/
namespace SynthData

/-- The calls of a generator, each of which may be broken off. -/
structure GuardedMachine (σ α : Type) where
  init : Context → σ → Streams → Guarded (Except Fault Unit × σ × Streams)
  generate : σ → Guarded (Except Fault (Option α) × σ)
  reset : σ → Streams → Guarded (Except Fault Unit × σ × Streams)
  close : σ → σ

namespace GuardedMachine

variable {σ α : Type}

/-- A machine of which nothing is known, taken at its word. -/
def ofMachine (m : Machine σ α) : GuardedMachine σ α where
  init context s streams := return m.init context s streams
  generate s := return m.generate s
  reset s streams := return m.reset s streams
  close := m.close

/-- What a call makes of a run. -/
def call (g : GuardedMachine σ α) (r : Run σ α) : Machine.Call → Guarded (Run σ α)
  | .init context => do
    let (_, s, streams) ← g.init context r.state r.streams
    return ⟨s, streams, []⟩
  | .generate => do
    match ← g.generate r.state with
    | (.ok (some a), s) => return ⟨s, r.streams, a :: r.pass⟩
    | (_, s) => return ⟨s, r.streams, r.pass⟩
  | .reset => do
    let (_, s, streams) ← g.reset r.state r.streams
    return ⟨s, streams, []⟩
  | .close => return ⟨g.close r.state, r.streams, r.pass⟩

/-- What a sequence of calls makes of a run. -/
def run (g : GuardedMachine σ α) (calls : List Machine.Call) (r : Run σ α) : Guarded (Run σ α) :=
  calls.foldlM g.call r

/-- **No call is broken off** from a state within an invariant, and each of them does what a
machine does, which keeps the invariant. -/
structure Follows (g : GuardedMachine σ α) (m : Machine σ α) (inv : σ → Prop) : Prop
    extends m.Keeps inv where
  init_eq : ∀ context s streams, inv s → g.init context s streams = .ok (m.init context s streams)
  generate_eq : ∀ s, inv s → g.generate s = .ok (m.generate s)
  reset_eq : ∀ s streams, inv s → g.reset s streams = .ok (m.reset s streams)
  close_eq : ∀ s, g.close s = m.close s

variable {g : GuardedMachine σ α} {m : Machine σ α} {inv : σ → Prop}

theorem ofMachine_follows (m : Machine σ α) : (ofMachine m).Follows m (fun _ => True) where
  init := fun _ _ _ _ => trivial
  generate := fun _ _ => trivial
  reset := fun _ _ _ => trivial
  close := fun _ _ => trivial
  init_eq := fun _ _ _ _ => rfl
  generate_eq := fun _ _ => rfl
  reset_eq := fun _ _ _ => rfl
  close_eq := fun _ => rfl

theorem Follows.call (hg : g.Follows m inv) {r : Run σ α} (hr : inv r.state)
    (c : Machine.Call) : g.call r c = .ok (m.call r c) := by
  cases c with
  | init context => simp [GuardedMachine.call, Machine.call, hg.init_eq context _ _ hr]
  | generate =>
    simp only [GuardedMachine.call, Machine.call, hg.generate_eq _ hr, Guarded.ok_bind]
    rcases m.generate r.state with ⟨_ | _ | a, s⟩
    · rfl
    · rfl
    · rfl
  | reset => simp [GuardedMachine.call, Machine.call, hg.reset_eq _ _ hr]
  | close => simp [GuardedMachine.call, Machine.call, hg.close_eq]

/-- **No run is broken off.** -/
theorem Follows.run (hg : g.Follows m inv) {r : Run σ α} (hr : inv r.state)
    (calls : List Machine.Call) : g.run calls r = .ok (m.run calls r) := by
  induction calls generalizing r with
  | nil => rfl
  | cons c calls ih =>
    rw [GuardedMachine.run, List.foldlM_cons, hg.call hr c]
    exact ih (hg.toKeeps.call hr c)

/-! ## Machines put together -/

variable {τ : Type} {G : GuardedMachine τ α} {M : Machine τ α}

/-- The states of one machine are states of another one, whose calls are broken off where its own
ones are. -/
structure Embeds (g : GuardedMachine σ α) (G : GuardedMachine τ α) (wrap : σ → τ) : Prop where
  init : ∀ context s streams, G.init context (wrap s) streams =
    (g.init context s streams).map fun r => (r.1, wrap r.2.1, r.2.2)
  generate : ∀ s, G.generate (wrap s) = (g.generate s).map fun r => (r.1, wrap r.2)
  reset : ∀ s streams, G.reset (wrap s) streams =
    (g.reset s streams).map fun r => (r.1, wrap r.2.1, r.2.2)

/-- What is put together from machines that are not broken off is not broken off. -/
theorem Follows.of_covered {inv : τ → Prop} (hclose : ∀ t, G.close t = M.close t)
    (h : M.Covered inv fun {σ} m wrap => ∃ g : GuardedMachine σ α,
      g.Embeds G wrap ∧ g.Follows m (fun s => inv (wrap s))) : G.Follows M inv where
  toKeeps := .of_covered fun t ht => by
    obtain ⟨σ, m, wrap, s, hs, hembeds, g, -, hg⟩ := h t ht
    exact ⟨σ, m, wrap, s, hs, hembeds, hg.toKeeps⟩
  init_eq := by
    intro context t streams ht
    obtain ⟨σ, m, wrap, s, rfl, hembeds, g, hguarded, hg⟩ := h t ht
    rw [hguarded.init, hembeds.init, hg.init_eq context s streams ht]
    rfl
  generate_eq := by
    intro t ht
    obtain ⟨σ, m, wrap, s, rfl, hembeds, g, hguarded, hg⟩ := h t ht
    rw [hguarded.generate, hembeds.generate, hg.generate_eq s ht]
    rfl
  reset_eq := by
    intro t streams ht
    obtain ⟨σ, m, wrap, s, rfl, hembeds, g, hguarded, hg⟩ := h t ht
    rw [hguarded.reset, hembeds.reset, hg.reset_eq s streams ht]
    rfl
  close_eq := hclose

end GuardedMachine

open GuardedMachine

variable {σ α β : Type} {g : GuardedMachine σ α} {m : Machine σ α} {inv : σ → Prop}

/-! ## Generators over a source -/

namespace Wrapped

/-- Initializes the source, and lets the owner run once that has succeeded. -/
def guardedInit (owner : String) (g : GuardedMachine σ α) (context : Context) (w : Wrapped σ)
    (streams : Streams) : Guarded (Except Fault Unit × Wrapped σ × Streams) :=
  match w.phase.requireCreated owner with
  | .error fault => return (.error fault, w, streams)
  | .ok _ => do
    match ← g.init context w.source streams with
    | (.error fault, source, streams) => return (.error fault, ⟨source, w.phase⟩, streams)
    | (.ok _, source, streams) => return (.ok (), ⟨source, .running⟩, streams)

/-- The next value of the source, if the owner runs. -/
def guardedGenerate (owner : String) (g : GuardedMachine σ α) (w : Wrapped σ) :
    Guarded (Except Fault (Option α) × Wrapped σ) :=
  match w.phase.requireRunning owner with
  | .error fault => return (.error fault, w)
  | .ok _ => do
    let (answer, source) ← g.generate w.source
    return (answer, ⟨source, w.phase⟩)

/-- Resets the source, or initializes an owner that never was. -/
def guardedReset (owner : String) (g : GuardedMachine σ α) (w : Wrapped σ) (streams : Streams) :
    Guarded (Except Fault Bool × Wrapped σ × Streams) :=
  match w.phase with
  | .closed => return (.error (.alreadyClosed owner), w, streams)
  | .created => do
    let (context, streams) := streams.defaultContext
    match ← w.guardedInit owner g context streams with
    | (.error fault, w, streams) => return (.error fault, w, streams)
    | (.ok _, w, streams) => return (.ok true, w, streams)
  | .running => do
    match ← g.reset w.source streams with
    | (.error fault, source, streams) => return (.error fault, ⟨source, w.phase⟩, streams)
    | (.ok _, source, streams) => return (.ok false, ⟨source, w.phase⟩, streams)

variable {w : Wrapped σ}

theorem guardedInit_eq (hg : g.Follows m inv) (hw : inv w.source) (owner : String)
    (context : Context) (streams : Streams) :
    w.guardedInit owner g context streams = .ok (w.init owner m context streams) := by
  unfold guardedInit init
  cases w.phase.requireCreated owner with
  | error fault => rfl
  | ok _ =>
    rw [hg.init_eq context w.source streams hw]
    rcases m.init context w.source streams with ⟨_ | _, source, streams'⟩
    · rfl
    · rfl

theorem guardedGenerate_eq (hg : g.Follows m inv) (hw : inv w.source) (owner : String) :
    w.guardedGenerate owner g = .ok (w.generate owner m) := by
  obtain ⟨source, phase⟩ := w
  simp only [guardedGenerate, generate]
  cases phase.requireRunning owner with
  | error fault => rfl
  | ok _ =>
    rw [hg.generate_eq source hw]
    rfl

theorem guardedReset_eq (hg : g.Follows m inv) (hw : inv w.source) (owner : String)
    (streams : Streams) :
    w.guardedReset owner g streams = .ok (w.reset owner m streams) := by
  obtain ⟨source, phase⟩ := w
  cases phase with
  | closed => rfl
  | created =>
    simp only [guardedReset, reset, guardedInit_eq (w := ⟨source, .created⟩) hg hw]
    rcases init owner m streams.defaultContext.1 ⟨source, .created⟩ streams.defaultContext.2 with
      ⟨_ | _, w', streams'⟩
    · rfl
    · rfl
  | running =>
    simp only [guardedReset, reset, hg.reset_eq source streams hw]
    rcases m.reset source streams with ⟨_ | _, source', streams'⟩
    · rfl
    · rfl

end Wrapped

namespace Mapped

/-- The generator of the source's values, each changed by a function. -/
def guarded (owner : String) (g : GuardedMachine σ α) (f : α → β) :
    GuardedMachine (Wrapped σ) β where
  init context w streams := w.guardedInit owner g context streams
  generate w := do
    match ← w.guardedGenerate owner g with
    | (.error fault, w) => return (.error fault, w)
    | (.ok value, w) => return (.ok (value.map f), w)
  reset w streams := do
    match ← w.guardedReset owner g streams with
    | (.error fault, w, streams) => return (.error fault, w, streams)
    | (.ok _, w, streams) => return (.ok (), w, streams)
  close w := ⟨g.close w.source, .closed⟩

theorem guarded_follows (hg : g.Follows m inv) (owner : String) (f : α → β) :
    (guarded owner g f).Follows (machine owner m f) (fun w => inv w.source) where
  toKeeps := machine_keeps hg.toKeeps
  init_eq := fun context _ streams hw => Wrapped.guardedInit_eq hg hw owner context streams
  generate_eq := by
    intro w hw
    simp only [guarded, machine, Wrapped.guardedGenerate_eq hg hw, Guarded.ok_bind]
    rcases w.generate owner m with ⟨_ | _, w'⟩
    · rfl
    · rfl
  reset_eq := by
    intro w streams hw
    simp only [guarded, machine, Wrapped.guardedReset_eq hg hw, Guarded.ok_bind]
    rcases w.reset owner m streams with ⟨_ | _, w', streams'⟩
    · rfl
    · rfl
  close_eq := fun w => congrArg (Wrapped.mk · .closed) (hg.close_eq w.source)

end Mapped

/-! ## Values through a pool -/

namespace Expand

/-- The next value of the source, unless it is known to have run out. -/
def guardedPull (g : GuardedMachine σ α) (depleted : Bool) (w : Wrapped σ) :
    Guarded (Except Fault (Option α) × Wrapped σ × Bool) :=
  if depleted then return (.ok none, w, true)
  else do
    match ← g.generate w.source with
    | (.error fault, source) => return (.error fault, ⟨source, w.phase⟩, false)
    | (.ok none, source) => return (.ok none, ⟨source, w.phase⟩, true)
    | (.ok (some v), source) => return (.ok (some v), ⟨source, w.phase⟩, false)

/-- Reads up to `room` values into the pool. -/
def guardedFill (g : GuardedMachine σ α) : (room : Nat) → Array α → Bool → Wrapped σ →
    Guarded (Except Fault Unit × Array α × Bool × Wrapped σ)
  | 0, pool, depleted, w => return (.ok (), pool, depleted, w)
  | room + 1, pool, depleted, w => do
    match ← guardedPull g depleted w with
    | (.error fault, w, depleted) => return (.error fault, pool, depleted, w)
    | (.ok none, w, depleted) => return (.ok (), pool, depleted, w)
    | (.ok (some v), w, depleted) => guardedFill g room (pool.push v) depleted w

/-- Hands out the member at a position, which must be one of the pool. -/
def guardedHandOut (g : GuardedMachine σ α) (unique : Bool) (index : Nat) (keep : Bool)
    (e : Expand σ α) : Guarded (Except Fault (Option α) × Expand σ α) := do
  let value ← entryAt e.pool index
  if unique then return (.ok (some value), { e with pool := takeOut e.pool index })
  else if keep then return (.ok (some value), e)
  else
    match ← guardedPull g e.depleted e.wrapped with
    | (.error fault, w, depleted) =>
      return (.error fault, { e with wrapped := w, depleted := depleted })
    | (.ok none, w, depleted) =>
      return (.ok (some value), { e with wrapped := w, depleted := depleted })
    | (.ok (some fresh), w, depleted) =>
      let pool ← replaceAt e.pool index fresh
      return (.ok (some value), { e with wrapped := w, pool := pool, depleted := depleted })

/-- Fills the pool as far as the source and the capacity allow. -/
def guardedRefill (g : GuardedMachine σ α) (e : Expand σ α) :
    Guarded (Except Fault Unit × Expand σ α) := do
  let (answer, pool, depleted, w) ←
    guardedFill g (e.capacity.getD 1 - e.pool.size) e.pool e.depleted e.wrapped
  return (answer, { e with wrapped := w, pool := pool, depleted := depleted })

/-- What a running expander answers. -/
def guardedEmit (g : GuardedMachine σ α) (unique : Bool) (quota : Float) (e : Expand σ α) :
    Guarded (Except Fault (Option α) × Expand σ α) := do
  match ← guardedRefill g e with
  | (.error fault, e) => return (.error fault, e)
  | (.ok _, e) =>
    if e.pool.isEmpty then return (.ok none, e)
    else
      match e.rng with
      | none => return (.ok none, e)
      | some rng =>
        let (index, rng) ← rng.drawFrom 0 e.pool.size
        if unique then guardedHandOut g true index false { e with rng := some rng }
        else
          let (chance, rng) := rng.unit
          guardedHandOut g false index (chance < quota) { e with rng := some rng }

/-- The generator of random members of a bounded pool. -/
def guarded (g : GuardedMachine σ α) (unique : Bool) (quota : Float) :
    GuardedMachine (Expand σ α) α where
  init context e streams := do
    match ← e.wrapped.guardedInit owner g context streams with
    | (.error fault, w, streams) => return (.error fault, { e with wrapped := w }, streams)
    | (.ok _, w, streams) =>
      let (rng, streams) := streams.issue context
      return (.ok (), ⟨w, #[], capacityFrom context e.capacity, false, some rng⟩, streams)
  generate e :=
    match e.wrapped.phase.requireRunning owner with
    | .error fault => return (.error fault, e)
    | .ok _ => guardedEmit g unique quota e
  reset e streams := do
    match ← e.wrapped.guardedReset owner g streams with
    | (.error fault, w, streams) => return (.error fault, { e with wrapped := w }, streams)
    | (.ok false, w, streams) => return (.ok (), ⟨w, #[], e.capacity, false, e.rng⟩, streams)
    | (.ok true, w, streams) =>
      let (context, streams) := streams.defaultContext
      let (rng, streams) := streams.issue context
      return (.ok (), ⟨w, e.pool, capacityFrom context e.capacity, e.depleted, some rng⟩, streams)
  close e := { e with wrapped := ⟨g.close e.wrapped.source, .closed⟩, pool := #[] }

theorem guardedPull_eq (hg : g.Follows m inv) (depleted : Bool) {w : Wrapped σ}
    (hw : inv w.source) : guardedPull g depleted w = .ok (pull m depleted w) := by
  obtain ⟨source, phase⟩ := w
  cases depleted with
  | true => rfl
  | false =>
    simp only [guardedPull, pull, hg.generate_eq source hw]
    rcases m.generate source with ⟨_ | _ | v, source'⟩
    · rfl
    · rfl
    · rfl

/-- Reading keeps what is known of the source. -/
theorem pull_keeps (hm : m.Keeps inv) (depleted : Bool) {w : Wrapped σ} (hw : inv w.source) :
    inv (pull m depleted w).2.1.source := by
  rcases pull_cases m depleted w with ⟨-, h⟩ | ⟨-, h⟩
  · rw [h]; exact hw
  · rw [h]; exact hm.generate w.source hw

theorem refill_keeps (hm : m.Keeps inv) {e : Expand σ α} (he : inv e.wrapped.source) :
    inv (refill m e).2.wrapped.source :=
  (refill_reads (P := fun s _ => inv s)
    ⟨fun s _ _ hs _ => hm.generate s hs, fun s _ hs => hm.generate s hs⟩ he).1

theorem guardedFill_eq (hg : g.Follows m inv) (room : Nat) (pool : Array α) (depleted : Bool)
    {w : Wrapped σ} (hw : inv w.source) :
    guardedFill g room pool depleted w = .ok (fill m room pool depleted w) := by
  induction room generalizing pool depleted w with
  | zero => rfl
  | succ room ih =>
    have hkept := pull_keeps hg.toKeeps depleted hw
    unfold guardedFill fill
    rw [guardedPull_eq hg depleted hw]
    rcases hpull : pull m depleted w with ⟨_ | _ | v, w', depleted'⟩
    · rfl
    · rfl
    · rw [hpull] at hkept
      exact ih (pool.push v) depleted' hkept

theorem guardedRefill_eq (hg : g.Follows m inv) {e : Expand σ α} (he : inv e.wrapped.source) :
    guardedRefill g e = .ok (refill m e) := by
  simp only [guardedRefill, guardedFill_eq hg _ _ _ he, Guarded.ok_bind]
  rfl

theorem guardedHandOut_eq (hg : g.Follows m inv) (unique : Bool) {index : Nat} (keep : Bool)
    {e : Expand σ α} (he : inv e.wrapped.source) (hindex : index < e.pool.size) :
    guardedHandOut g unique index keep e = .ok (handOut m unique index keep e) := by
  obtain ⟨w, pool, capacity, depleted, rng⟩ := e
  have hvalue : pool[index]? = some pool[index] := Array.getElem?_eq_getElem hindex
  simp only [guardedHandOut, handOut, entryAt_ok hindex, hvalue, guardedPull_eq hg depleted he,
    replaceAt_ok hindex, Guarded.ok_bind, Guarded.pure_eq]
  by_cases hunique : unique
  · simp [hunique]
  · by_cases hkeep : keep
    · simp [hunique, hkeep]
    · rcases pull m depleted w with ⟨_ | _ | fresh, w', depleted'⟩
      · simp [hunique, hkeep]
      · simp [hunique, hkeep]
      · simp [hunique, hkeep]

/-- **A running expander is not broken off.**  It draws a position only if its pool has one, and the
pool does not change before the member at it is taken or replaced. -/
theorem guardedEmit_eq (hg : g.Follows m inv) (unique : Bool) (quota : Float) {e : Expand σ α}
    (he : inv e.wrapped.source) :
    guardedEmit g unique quota e = .ok (emit m unique quota e) := by
  have hkept := refill_keeps hg.toKeeps he
  simp only [guardedEmit, emit, guardedRefill_eq hg he, Guarded.ok_bind]
  rcases hrefill : refill m e with ⟨fault | _, w, pool, capacity, depleted, rng⟩
  · rfl
  · rw [hrefill] at hkept
    by_cases hempty : pool.isEmpty
    · simp [hempty]
    · have hsize : 0 < pool.size := Nat.pos_of_ne_zero (by simpa using hempty)
      cases rng with
      | none => simp [hempty]
      | some rng =>
        have hindex := rng.below_lt hsize
        simp only [rng.drawFrom_zero hsize, Guarded.ok_bind, if_neg hempty]
        cases unique with
        | true =>
          exact guardedHandOut_eq (e := ⟨w, pool, capacity, depleted, _⟩) hg true false hkept hindex
        | false =>
          exact guardedHandOut_eq (e := ⟨w, pool, capacity, depleted, _⟩) hg false _ hkept hindex

/-- **No call of an expander is broken off**, if none of its source is. -/
theorem guarded_follows (hg : g.Follows m inv) (unique : Bool) (quota : Float) :
    (guarded g unique quota).Follows (machine m unique quota)
      (fun e => Sound inv (fun _ => True) e.wrapped.source e.pool) where
  toKeeps := (machine_yields ⟨hg.toKeeps, fun _ _ _ _ => trivial⟩ unique quota).toKeeps
  init_eq := by
    intro context e streams he
    simp only [guarded, machine, Wrapped.guardedInit_eq hg he.1, Guarded.ok_bind]
    rcases e.wrapped.init owner m context streams with ⟨_ | _, w, streams'⟩
    · rfl
    · rfl
  generate_eq := by
    intro e he
    simp only [guarded, machine]
    cases e.wrapped.phase.requireRunning owner with
    | error fault => rfl
    | ok _ => exact guardedEmit_eq hg unique quota he.1
  reset_eq := by
    intro e streams he
    simp only [guarded, machine, Wrapped.guardedReset_eq hg he.1, Guarded.ok_bind]
    rcases e.wrapped.reset owner m streams with ⟨_ | opened, w, streams'⟩
    · rfl
    · cases opened with
      | true | false => rfl
  close_eq := fun e => by simp only [guarded, machine, Wrapped.close, hg.close_eq]

end Expand
end SynthData
