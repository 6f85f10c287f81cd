import SynthData.Generator.Shared
import SynthData.Proofs.Generator.Lifecycle
import SynthData.Proofs.Generator.Pass

/-!
# One pass for all handles

Handles of a shared source are made, initialized, asked, reset and closed in any
order.  `Session` is such a use of a source.  Next to the handles it keeps what an
observer of the calls can tell: who was the first to be initialized, how often
running handles were asked, and which values were handed out.

`Machine.logged` is the other side: a source that writes down the calls that reach
it.  Whatever the order of the calls, its log is one initialization, by the
context of the first handle, and one call of `generate` for each time that a
running handle was asked; and the values handed out are those that the source
hands out when it is asked that often in a row (`Session.one_pass`).
-/
namespace SynthData

namespace Machine

variable {σ α : Type} (m : Machine σ α)

/-- The machine with a log of the calls that reach it, the latest last. -/
def logged : Machine (σ × List Call) α where
  init context s streams :=
    let (answer, source, streams) := m.init context s.1 streams
    (answer, (source, s.2 ++ [.init context]), streams)
  generate s :=
    let (answer, source) := m.generate s.1
    (answer, (source, s.2 ++ [.generate]))
  reset s streams :=
    let (answer, source, streams) := m.reset s.1 streams
    (answer, (source, s.2 ++ [.reset]), streams)
  close s := (m.close s.1, s.2 ++ [.close])
  phase s := m.phase s.1
  threadSafe s := m.threadSafe s.1
  parallelizable s := m.parallelizable s.1

end Machine

/-- What can be done with the handles of a source: another one is made, or a call
is made on one of them. -/
inductive HandleStep where
  | clone
  | call (handle : Nat) (c : Machine.Call)

/-- The handles of a source in the course of their use. -/
structure Session (σ α : Type) where
  handles : SharedHandles σ
  streams : Streams
  /-- The context by which a handle was initialized first. -/
  opened : Option Context
  /-- How often a running handle was asked for a value. -/
  asked : Nat
  /-- The values handed out through any of the handles, in the order of the calls. -/
  values : List α

namespace SharedHandles

variable {σ α : Type} (m : Machine σ α) {s : SharedHandles σ} {number : Nat}

/-! ## What the calls on a handle do -/

/-- Only a handle that is new does anything when it is initialized. -/
theorem init_of_not_created (h : s.phase number ≠ .created) (context : Context)
    (streams : Streams) : ((machine m number).init context s streams).2.1 = s := by
  obtain ⟨shared, handles⟩ := s
  cases hphase : handles.getD number .closed with
  | created => exact absurd hphase h
  | running | closed => simp only [machine, phase, hphase, Shared.init, set_phase hphase]

theorem reset_of_not_created (h : s.phase number ≠ .created) (streams : Streams) :
    ((machine m number).reset s streams).2.1 = s := by
  obtain ⟨shared, handles⟩ := s
  cases hphase : handles.getD number .closed with
  | created => exact absurd hphase h
  | running | closed => simp only [machine, phase, hphase, Shared.reset, set_phase hphase]

/-- A new handle that is reset is initialized by a default context. -/
theorem reset_of_created (h : s.phase number = .created) (streams : Streams) :
    (machine m number).reset s streams =
      (machine m number).init streams.defaultContext.1 s streams.defaultContext.2 := by
  simp only [machine, h, Shared.reset]

/-- Later handles do not initialize the source. -/
theorem shared_init (h : s.shared.initialized = true) (context : Context) (streams : Streams) :
    ((machine m number).init context s streams).2.1.shared = s.shared := by
  cases hphase : s.phase number with
  | created => simp only [machine, hphase, Shared.init, h, if_true]
  | running | closed => rw [init_of_not_created m (by simp [hphase])]

/-- The first handle initializes the source. -/
theorem shared_init_first (h : s.phase number = .created) (hnew : s.shared.initialized = false)
    {context : Context} {streams : Streams}
    (hok : (m.init context s.shared.source streams).1 = .ok ()) :
    ((machine m number).init context s streams).2.1.shared =
      ⟨(m.init context s.shared.source streams).2.1, true⟩ := by
  rcases hinit : m.init context s.shared.source streams with ⟨_ | _, source, streams'⟩
  · rw [hinit] at hok
    cases hok
  · simp [machine, h, Shared.init, hnew, hinit]

theorem generate_of_running (h : s.phase number = .running) :
    (machine m number).generate s =
      ((m.generate s.shared.source).1,
        { s with shared := { s.shared with source := (m.generate s.shared.source).2 } }) := by
  obtain ⟨⟨source, initialized⟩, handles⟩ := s
  have hphase : handles.getD number .closed = .running := h
  simp only [machine, Shared.generate, hphase, Phase.requireRunning]

theorem generate_of_not_running (h : s.phase number ≠ .running) :
    ∃ fault, (machine m number).generate s = (.error fault, s) := by
  obtain ⟨owner, fault, -, hgenerate⟩ := (Kind.handle m number).generate_refused h
  exact ⟨fault, hgenerate⟩

/-- A new handle is not a running one. -/
theorem phase_clone {number : Nat} (h : s.clone.phase number = .running) :
    s.phase number = .running := by
  obtain ⟨shared, handles⟩ := s
  have h : (handles.push .created).getD number .closed = .running := h
  rw [Array.getD_eq_getD_getElem?, Array.getElem?_push] at h
  split at h
  · cases h
  · rwa [← Array.getD_eq_getD_getElem?] at h

/-- Closing a handle makes no handle run. -/
theorem phase_close {number other : Nat}
    (h : ((machine m number).close s).phase other = .running) : s.phase other = .running := by
  obtain ⟨shared, handles⟩ := s
  have h : (handles.setIfInBounds number .closed).getD other .closed = .running := h
  rw [Array.getD_eq_getD_getElem?, Array.getElem?_setIfInBounds] at h
  split at h
  · split at h <;> cases h
  · rwa [← Array.getD_eq_getD_getElem?] at h

end SharedHandles

namespace Session

variable {σ α : Type}

/-- A source with one handle that has not been used. -/
def start (source : σ) (streams : Streams) : Session σ α :=
  ⟨.new source, streams, none, 0, []⟩

/-- The first context, after a new handle has been initialized by a context. -/
def openedBy (e : Session σ α) (handle : Nat) (context : Context) : Option Context :=
  if e.handles.phase handle = .created then some (e.opened.getD context) else e.opened

/-- What a step makes of a session. -/
def step (m : Machine σ α) (e : Session σ α) : HandleStep → Session σ α
  | .clone => { e with handles := e.handles.clone }
  | .call handle (.init context) =>
    let (_, handles, streams) := (SharedHandles.machine m handle).init context e.handles e.streams
    { e with handles := handles, streams := streams, opened := e.openedBy handle context }
  | .call handle .generate =>
    let (answer, handles) := (SharedHandles.machine m handle).generate e.handles
    { e with
      handles := handles
      asked := if e.handles.phase handle = .running then e.asked + 1 else e.asked
      values := e.values ++ (Machine.valueOf answer).toList }
  | .call handle .reset =>
    let (_, handles, streams) := (SharedHandles.machine m handle).reset e.handles e.streams
    { e with
      handles := handles
      streams := streams
      opened := e.openedBy handle e.streams.defaultContext.1 }
  | .call handle .close =>
    { e with handles := (SharedHandles.machine m handle).close e.handles }

/-- What a sequence of steps makes of a session. -/
def run (m : Machine σ α) (steps : List HandleStep) (e : Session σ α) : Session σ α :=
  steps.foldl (step m) e

/-- Before a handle is initialized, nothing has reached the source. -/
structure Unopened (source : σ) (e : Session (σ × List Machine.Call) α) : Prop where
  opened : e.opened = none
  shared : e.handles.shared = ⟨(source, []), false⟩
  idle : ∀ handle, e.handles.phase handle ≠ .running
  asked : e.asked = 0
  values : e.values = []

/-- Once a handle has been initialized, the source is in the course of a pass that
nothing has interrupted. -/
structure Opened (m : Machine σ α) (source : σ) (context : Context)
    (e : Session (σ × List Machine.Call) α) : Prop where
  opened : e.opened = some context
  pass : ∃ streams, ∃ first, first = (m.init context source streams).2.1 ∧
    e.handles.shared =
      ⟨(m.after e.asked first, .init context :: List.replicate e.asked .generate), true⟩ ∧
    e.values = m.stream e.asked first

section

variable {m : Machine σ α} {source : σ} {e : Session (σ × List Machine.Call) α}

theorem unopened_start (source : σ) (streams : Streams) :
    (start (source, []) streams : Session (σ × List Machine.Call) α).Unopened source where
  opened := rfl
  shared := rfl
  idle := by
    intro handle h
    have h : (#[Phase.created] : Array Phase).getD handle .closed = .running := h
    cases handle <;> cases h
  asked := rfl
  values := rfl

/-- The first handle that is initialized begins the pass. -/
theorem Unopened.init (he : e.Unopened source) {handle : Nat}
    (hhandle : e.handles.phase handle = .created) {context : Context} {streams : Streams}
    (hok : (m.init context source streams).1 = .ok ()) (streams' : Streams) :
    Opened m source context
      { e with
        handles := ((SharedHandles.machine m.logged handle).init context e.handles streams).2.1
        streams := streams'
        opened := e.openedBy handle context } where
  opened := by simp [openedBy, hhandle, he.opened]
  pass := by
    have hlogged : (m.logged.init context e.handles.shared.source streams).1 = .ok () := by
      rw [he.shared]
      exact hok
    have hshared := SharedHandles.shared_init_first m.logged hhandle (by rw [he.shared]) hlogged
    refine ⟨streams, _, rfl, ?_, ?_⟩
    · rw [hshared, he.shared, he.asked]
      rfl
    · rw [he.values, he.asked]
      rfl

/-- Handles that are initialized later join the pass. -/
theorem Opened.init {context : Context} (he : Opened m source context e) {handle : Nat}
    (context' : Context) (streams streams' : Streams) :
    Opened m source context
      { e with
        handles := ((SharedHandles.machine m.logged handle).init context' e.handles streams).2.1
        streams := streams'
        opened := e.openedBy handle context' } where
  opened := by
    simp only [openedBy, he.opened]
    split <;> rfl
  pass := by
    obtain ⟨streams₀, first, hfirst, hshared, hvalues⟩ := he.pass
    refine ⟨streams₀, first, hfirst, ?_, hvalues⟩
    dsimp only
    rw [SharedHandles.shared_init _ (by rw [hshared]), hshared]

/-- A step of a session in which no handle has been initialized. -/
theorem Unopened.step (he : e.Unopened source)
    (hok : ∀ context streams, (m.init context source streams).1 = .ok ()) (c : HandleStep) :
    (step m.logged e c).Unopened source ∨
      ∃ context, Opened m source context (Session.step m.logged e c) := by
  cases c with
  | clone =>
    exact Or.inl ⟨he.opened, he.shared,
      fun handle h => he.idle handle (SharedHandles.phase_clone h), he.asked, he.values⟩
  | call handle c =>
    cases c with
    | init context =>
      by_cases hhandle : e.handles.phase handle = .created
      · exact Or.inr ⟨context, he.init hhandle (hok context e.streams) _⟩
      · left
        simp only [Session.step, openedBy, if_neg hhandle,
          SharedHandles.init_of_not_created _ hhandle]
        exact ⟨he.opened, he.shared, he.idle, he.asked, he.values⟩
    | generate =>
      left
      obtain ⟨fault, hgenerate⟩ :=
        SharedHandles.generate_of_not_running m.logged (he.idle handle)
      simp only [Session.step, hgenerate, if_neg (he.idle handle)]
      exact ⟨he.opened, he.shared, he.idle, he.asked, by simp [Machine.valueOf, he.values]⟩
    | reset =>
      by_cases hhandle : e.handles.phase handle = .created
      · refine Or.inr ⟨e.streams.defaultContext.1, ?_⟩
        simp only [Session.step, SharedHandles.reset_of_created _ hhandle]
        exact he.init hhandle (hok _ _) _
      · left
        simp only [Session.step, openedBy, if_neg hhandle,
          SharedHandles.reset_of_not_created _ hhandle]
        exact ⟨he.opened, he.shared, he.idle, he.asked, he.values⟩
    | close =>
      exact Or.inl ⟨he.opened, he.shared,
        fun other h => he.idle other (SharedHandles.phase_close m.logged h), he.asked, he.values⟩

/-- A step of a session in which a handle has been initialized: the pass goes on by
one call if a running handle is asked, and stands still otherwise. -/
theorem Opened.step {context : Context} (he : Opened m source context e) (c : HandleStep) :
    Opened m source context (step m.logged e c) := by
  cases c with
  | clone => exact ⟨he.opened, he.pass⟩
  | call handle c =>
    cases c with
    | init context' => exact he.init context' e.streams _
    | generate =>
      by_cases hhandle : e.handles.phase handle = .running
      · simp only [Session.step, SharedHandles.generate_of_running _ hhandle, if_pos hhandle]
        obtain ⟨streams, first, hfirst, hshared, hvalues⟩ := he.pass
        refine ⟨he.opened, streams, first, hfirst, ?_, ?_⟩
        · dsimp only
          rw [hshared]
          simp [Machine.logged, Machine.after, List.replicate_succ']
        · dsimp only
          rw [hshared, hvalues, Machine.stream_succ]
          rfl
      · obtain ⟨fault, hgenerate⟩ := SharedHandles.generate_of_not_running m.logged hhandle
        simp only [Session.step, hgenerate, if_neg hhandle]
        exact ⟨he.opened, by simpa [Machine.valueOf] using he.pass⟩
    | reset =>
      by_cases hhandle : e.handles.phase handle = .created
      · simp only [Session.step, SharedHandles.reset_of_created _ hhandle]
        exact he.init _ _ _
      · simp only [Session.step, openedBy, if_neg hhandle,
          SharedHandles.reset_of_not_created _ hhandle]
        exact ⟨he.opened, he.pass⟩
    | close => exact ⟨he.opened, he.pass⟩

/-- Whatever the order of the steps, either no handle has been initialized or the
source is in the course of its only pass. -/
theorem run_sound (hok : ∀ context streams, (m.init context source streams).1 = .ok ())
    (steps : List HandleStep) (streams : Streams) :
    (run m.logged steps (start (source, []) streams)).Unopened source ∨
      ∃ context, Opened m source context (run m.logged steps (start (source, []) streams)) := by
  suffices h : ∀ e : Session (σ × List Machine.Call) α,
      (e.Unopened source ∨ ∃ context, Opened m source context e) →
      ((run m.logged steps e).Unopened source ∨
        ∃ context, Opened m source context (run m.logged steps e)) from
    h _ (Or.inl (unopened_start source streams))
  induction steps with
  | nil => exact fun e he => he
  | cons c steps ih =>
    rintro e (he | ⟨context, he⟩)
    · exact ih _ (he.step hok c)
    · exact ih _ (Or.inr ⟨context, he.step c⟩)

/-- **All handles share one pass.**  If no handle was initialized, nothing has
reached the source and nothing was handed out.  Otherwise the source was
initialized once, by the context of the first handle that was, and then only asked
for values, once for each time that a running handle was asked; and the values
handed out are those that the source gives when it is asked that often in a
row. -/
theorem one_pass (m : Machine σ α) (source : σ)
    (hok : ∀ context streams, (m.init context source streams).1 = .ok ())
    (steps : List HandleStep) (streams : Streams) :
    let e := run m.logged steps (start (source, []) streams)
    let log := e.handles.shared.source.2
    (e.opened = none ∧ log = [] ∧ e.asked = 0 ∧ e.values = []) ∨
      ∃ context streams', e.opened = some context ∧
        log = .init context :: List.replicate e.asked .generate ∧
        e.handles.shared.source.1 = m.after e.asked (m.init context source streams').2.1 ∧
        e.values = m.stream e.asked (m.init context source streams').2.1 := by
  intro e log
  rcases run_sound hok steps streams with he | ⟨context, he⟩
  · exact Or.inl ⟨he.opened, by rw [show log = [] from congrArg (·.source.2) he.shared], he.asked,
      he.values⟩
  · obtain ⟨streams', first, rfl, hshared, hvalues⟩ := he.pass
    exact Or.inr ⟨context, streams', he.opened, congrArg (·.source.2) hshared,
      congrArg (·.source.1) hshared, hvalues⟩

/-- A handle is made while the first one is new.  It is initialized and asked once;
the first one joins, is asked and closed, and is asked in vain from then on, while
the pass goes on through the other one, also after a reset. -/
theorem one_pass_two_handles :
    let source := Listed.new #[10, 20, 30, 40]
    let streams := Streams.start fun _ => .ofSeed 0
    let steps : List HandleStep :=
      [.clone, .call 0 .generate, .call 1 (.init ⟨{}, 7⟩), .call 1 .generate, .call 0 .reset,
        .call 0 .generate, .call 0 .close, .call 0 .generate, .call 1 .reset, .call 1 .generate]
    let e : Session (Leaf (Listed Nat) × List Machine.Call) Nat :=
      run Listed.machine.logged steps (start (source, []) streams)
    let log := e.handles.shared.source.2
    (∀ context streams, (Listed.machine.init context source streams).1 = .ok ()) ∧
      e.values = [10, 20, 30] ∧ log = [.init ⟨{}, 7⟩, .generate, .generate, .generate] ∧
      ((e.opened = none ∧ log = [] ∧ e.asked = 0 ∧ e.values = []) ∨
        ∃ context streams', e.opened = some context ∧
          log = .init context :: List.replicate e.asked .generate ∧
          e.handles.shared.source.1 =
            Listed.machine.after e.asked (Listed.machine.init context source streams').2.1 ∧
          e.values =
            Listed.machine.stream e.asked (Listed.machine.init context source streams').2.1) :=
  ⟨fun _ _ => rfl, rfl, rfl, one_pass Listed.machine (Listed.new #[10, 20, 30, 40])
    (fun _ _ => rfl) _ (Streams.start fun _ => .ofSeed 0)⟩

end

end Session
end SynthData
