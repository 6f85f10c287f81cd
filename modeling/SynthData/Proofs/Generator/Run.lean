import SynthData.Generator.Machine

/-!
# Runs of a generator

A run makes calls of a generator, in any order and any number, and keeps what
the generator handed out since the last call of `init` or `reset`: a **pass**.
Statements about "every history of calls" quantify over the calls of a run.

Three things can be said of a machine once and for all runs:

* `Machine.Keeps`: an invariant holds after every call;
* `Machine.Yields`: all values that are handed out are of one sort;
* `Machine.Spends`: a value that is handed out is used up.  A predicate
  `pending` says which values a state may still hand out; a call of `generate`
  takes its answer out of them, and no call other than `init` and `reset` puts
  one back.  Then no pass has a value twice (`Spends.pass_nodup`).
-/
namespace SynthData

/-- A generator in the course of a run. -/
structure Run (σ α : Type) where
  state : σ
  streams : Streams
  /-- The values handed out since the last call of `init` or `reset`, the
  latest first. -/
  pass : List α

/-- A run that begins in a state. -/
def Run.start {σ α : Type} (s : σ) (streams : Streams) : Run σ α := ⟨s, streams, []⟩

namespace Machine

/-- A call of a generator. -/
inductive Call where
  | init (context : Context)
  | generate
  | reset
  | close

variable {σ α : Type} (m : Machine σ α)

/-- What a call makes of a run. -/
def call (r : Run σ α) : Call → Run σ α
  | .init context =>
    let (_, s, streams) := m.init context r.state r.streams
    ⟨s, streams, []⟩
  | .generate =>
    match m.generate r.state with
    | (.ok (some a), s) => ⟨s, r.streams, a :: r.pass⟩
    | (_, s) => ⟨s, r.streams, r.pass⟩
  | .reset =>
    let (_, s, streams) := m.reset r.state r.streams
    ⟨s, streams, []⟩
  | .close => ⟨m.close r.state, r.streams, r.pass⟩

/-- What a sequence of calls makes of a run. -/
def run (calls : List Call) (r : Run σ α) : Run σ α :=
  calls.foldl m.call r

/-- **An invariant**: no call leaves a state outside of it. -/
structure Keeps (inv : σ → Prop) : Prop where
  init : ∀ context s streams, inv s → inv (m.init context s streams).2.1
  generate : ∀ s, inv s → inv (m.generate s).2
  reset : ∀ s streams, inv s → inv (m.reset s streams).2.1
  close : ∀ s, inv s → inv (m.close s)

/-- Under an invariant, **every value is good**. -/
structure Yields (inv : σ → Prop) (good : α → Prop) : Prop extends m.Keeps inv where
  good : ∀ s a, inv s → (m.generate s).1 = .ok (some a) → good a

/-- Under an invariant, **values are used up**: `pending s a` says that the
state `s` may still hand out `a` before it is initialized or reset again. -/
structure Spends (inv : σ → Prop) (pending : σ → α → Prop) : Prop extends m.Keeps inv where
  spent : ∀ s a, inv s → (m.generate s).1 = .ok (some a) →
    pending s a ∧ ¬ pending (m.generate s).2 a
  generate_pending : ∀ s a, inv s → pending (m.generate s).2 a → pending s a
  close_pending : ∀ s a, inv s → pending (m.close s) a → pending s a

/-- A call of `reset` that fails leaves the state as it was. -/
def Steady : Prop :=
  ∀ s streams fault, (m.reset s streams).1 = .error fault → (m.reset s streams).2.1 = s

variable {m}

/-- A generating call either hands out a value, which joins the pass, or leaves
the pass as it is. -/
theorem call_generate (r : Run σ α) :
    (m.call r .generate).state = (m.generate r.state).2 ∧
      ((m.call r .generate).pass = r.pass ∨
        ∃ a, (m.generate r.state).1 = .ok (some a) ∧
          (m.call r .generate).pass = a :: r.pass) := by
  rcases h : m.generate r.state with ⟨_ | _ | a, s⟩
  · simp [call, h]
  · simp [call, h]
  · exact ⟨by simp [call, h], Or.inr ⟨a, rfl, by simp [call, h]⟩⟩

theorem Yields.imp {inv : σ → Prop} {good good' : α → Prop} (hm : m.Yields inv good)
    (h : ∀ a, good a → good' a) : m.Yields inv good' :=
  ⟨hm.toKeeps, fun s a hs ha => h a (hm.good s a hs ha)⟩

theorem Keeps.call {inv : σ → Prop} (hm : m.Keeps inv) {r : Run σ α} (hr : inv r.state)
    (c : Call) : inv (m.call r c).state := by
  cases c with
  | init context => exact hm.init context r.state r.streams hr
  | generate => rw [(call_generate r).1]; exact hm.generate r.state hr
  | reset => exact hm.reset r.state r.streams hr
  | close => exact hm.close r.state hr

/-- No state is reached, and nothing is used up. -/
theorem Spends.vacuous (m : Machine σ α) (pending : σ → α → Prop) :
    m.Spends (fun _ => False) pending where
  init := fun _ _ _ h => h
  generate := fun _ h => h
  reset := fun _ _ h => h
  close := fun _ h => h
  spent := fun _ _ h => h.elim
  generate_pending := fun _ _ h => h.elim
  close_pending := fun _ _ h => h.elim

/-- No state is reached, and all values are good. -/
theorem Yields.vacuous {inv : σ → Prop} (h : ∀ s, ¬ inv s) (good : α → Prop) :
    m.Yields inv good where
  init := fun _ s _ hs => absurd hs (h s)
  generate := fun s hs => absurd hs (h s)
  reset := fun s _ hs => absurd hs (h s)
  close := fun s hs => absurd hs (h s)
  good := fun s _ hs => absurd hs (h s)

/-- What an invariant needs may be part of it. -/
theorem Yields.guard {p : Prop} {inv : σ → Prop} {good : α → Prop} (h : p → m.Yields inv good) :
    m.Yields (fun s => p ∧ inv s) good := by
  by_cases hp : p
  · have hm := h hp
    exact
      { init := fun context s streams hs => ⟨hp, hm.init context s streams hs.2⟩
        generate := fun s hs => ⟨hp, hm.generate s hs.2⟩
        reset := fun s streams hs => ⟨hp, hm.reset s streams hs.2⟩
        close := fun s hs => ⟨hp, hm.close s hs.2⟩
        good := fun s a hs => hm.good s a hs.2 }
  · exact .vacuous (fun s hs => hp hs.1) good

/-- Values that are used up and good are used up among the good ones. -/
theorem Spends.and_good {inv inv' : σ → Prop} {pending : σ → α → Prop} {good : α → Prop}
    (hm : m.Spends inv pending) (hgood : m.Yields inv' good) :
    m.Spends (fun s => inv s ∧ inv' s) (fun s a => pending s a ∧ good a) where
  init := fun context s streams hs =>
    ⟨hm.init context s streams hs.1, hgood.init context s streams hs.2⟩
  generate := fun s hs => ⟨hm.generate s hs.1, hgood.generate s hs.2⟩
  reset := fun s streams hs => ⟨hm.reset s streams hs.1, hgood.reset s streams hs.2⟩
  close := fun s hs => ⟨hm.close s hs.1, hgood.close s hs.2⟩
  spent := by
    intro s a hs ha
    obtain ⟨hpending, hgone⟩ := hm.spent s a hs.1 ha
    exact ⟨⟨hpending, hgood.good s a hs.2 ha⟩, fun h => hgone h.1⟩
  generate_pending := fun s a hs h => ⟨hm.generate_pending s a hs.1 h.1, h.2⟩
  close_pending := fun s a hs h => ⟨hm.close_pending s a hs.1 h.1, h.2⟩

/-- An invariant holds at the end of every run. -/
theorem Keeps.run {inv : σ → Prop} (hm : m.Keeps inv) {r : Run σ α} (hr : inv r.state)
    (calls : List Call) : inv (m.run calls r).state := by
  induction calls generalizing r with
  | nil => exact hr
  | cons c calls ih => exact ih (hm.call hr c)

/-- What holds of a run at its beginning and after every call holds at its end. -/
theorem run_induction {P : Run σ α → Prop} (step : ∀ r c, P r → P (m.call r c))
    {r : Run σ α} (hr : P r) (calls : List Call) : P (m.run calls r) := by
  induction calls generalizing r with
  | nil => exact hr
  | cons c calls ih => exact ih (step r c hr)

/-- **All values of a run are good.** -/
theorem Yields.pass {inv : σ → Prop} {good : α → Prop} (hm : m.Yields inv good) {s : σ}
    (hs : inv s) (streams : Streams) (calls : List Call) :
    ∀ a ∈ (m.run calls (.start s streams)).pass, good a := by
  suffices h : inv (m.run calls (.start s streams)).state ∧
      ∀ a ∈ (m.run calls (.start s streams)).pass, good a from h.2
  refine run_induction (P := fun r => inv r.state ∧ ∀ a ∈ r.pass, good a) ?_
    ⟨hs, fun a ha => by cases ha⟩ calls
  rintro r c ⟨hr, hgood⟩
  refine ⟨hm.call hr c, ?_⟩
  cases c with
  | init _ | reset => intro a ha; cases ha
  | close => exact hgood
  | generate =>
    rcases (call_generate (m := m) r).2 with hpass | ⟨a, ha, hpass⟩
    · rw [hpass]; exact hgood
    · rw [hpass]
      intro b hb
      rcases List.mem_cons.mp hb with rfl | hb
      · exact hm.good r.state b hr ha
      · exact hgood b hb

/-- **No pass has a value twice**, because every value of the pass is used up. -/
theorem Spends.pass_nodup {inv : σ → Prop} {pending : σ → α → Prop}
    (hm : m.Spends inv pending) {s : σ} (hs : inv s) (streams : Streams)
    (calls : List Call) : (m.run calls (.start s streams)).pass.Nodup := by
  suffices h : inv (m.run calls (.start s streams)).state ∧
      (m.run calls (.start s streams)).pass.Nodup ∧
      ∀ a ∈ (m.run calls (.start s streams)).pass,
        ¬ pending (m.run calls (.start s streams)).state a from h.2.1
  -- what has been handed out in a pass is never pending again before its end
  refine run_induction
    (P := fun r => inv r.state ∧ r.pass.Nodup ∧ ∀ a ∈ r.pass, ¬ pending r.state a) ?_
    ⟨hs, List.nodup_nil, fun a ha => by cases ha⟩ calls
  rintro r c ⟨hr, hnodup, hspent⟩
  refine ⟨hm.call hr c, ?_⟩
  cases c with
  | init _ | reset => exact ⟨List.nodup_nil, fun a ha => by cases ha⟩
  | close => exact ⟨hnodup, fun a ha hp => hspent a ha (hm.close_pending r.state a hr hp)⟩
  | generate =>
    obtain ⟨hstate, hpass | ⟨a, ha, hpass⟩⟩ := call_generate (m := m) r
    · rw [hpass, hstate]
      exact ⟨hnodup, fun b hb hp => hspent b hb (hm.generate_pending r.state b hr hp)⟩
    · obtain ⟨hpending, hgone⟩ := hm.spent r.state a hr ha
      rw [hpass, hstate]
      refine ⟨List.nodup_cons.mpr ⟨fun hmem => hspent a hmem hpending, hnodup⟩, ?_⟩
      intro b hb hp
      rcases List.mem_cons.mp hb with rfl | hb
      · exact hgone hp
      · exact hspent b hb (hm.generate_pending r.state b hr hp)

/-! ## Machines put together -/

variable {τ : Type} {M : Machine τ α}

/-- The states of one machine are states of another one, which treats them in
the same way. -/
structure Embeds (m : Machine σ α) (M : Machine τ α) (wrap : σ → τ) : Prop where
  init : ∀ context s streams, M.init context (wrap s) streams =
    ((m.init context s streams).1, wrap (m.init context s streams).2.1,
      (m.init context s streams).2.2)
  generate : ∀ s, M.generate (wrap s) = ((m.generate s).1, wrap (m.generate s).2)
  reset : ∀ s streams, M.reset (wrap s) streams =
    ((m.reset s streams).1, wrap (m.reset s streams).2.1, (m.reset s streams).2.2)
  close : ∀ s, M.close (wrap s) = wrap (m.close s)

/-- A state of `M` that satisfies `inv` belongs to a machine with a property. -/
def Covered (M : Machine τ α) (inv : τ → Prop)
    (property : {σ : Type} → Machine σ α → (σ → τ) → Prop) : Prop :=
  ∀ t, inv t → ∃ (σ : Type) (m : Machine σ α) (wrap : σ → τ) (s : σ),
    t = wrap s ∧ m.Embeds M wrap ∧ property m wrap

/-- A machine has the invariants of the machines it is put together from. -/
theorem Keeps.of_covered {inv : τ → Prop}
    (h : M.Covered inv fun m wrap => m.Keeps (fun s => inv (wrap s))) : M.Keeps inv where
  init := by
    intro context t streams ht
    obtain ⟨σ, m, wrap, s, rfl, hembeds, hm⟩ := h t ht
    rw [hembeds.init]
    exact hm.init context s streams ht
  generate := by
    intro t ht
    obtain ⟨σ, m, wrap, s, rfl, hembeds, hm⟩ := h t ht
    rw [hembeds.generate]
    exact hm.generate s ht
  reset := by
    intro t streams ht
    obtain ⟨σ, m, wrap, s, rfl, hembeds, hm⟩ := h t ht
    rw [hembeds.reset]
    exact hm.reset s streams ht
  close := by
    intro t ht
    obtain ⟨σ, m, wrap, s, rfl, hembeds, hm⟩ := h t ht
    rw [hembeds.close]
    exact hm.close s ht

theorem Yields.of_covered {inv : τ → Prop} {good : α → Prop}
    (h : M.Covered inv fun m wrap => m.Yields (fun s => inv (wrap s)) good) :
    M.Yields inv good where
  toKeeps := .of_covered fun t ht => by
    obtain ⟨σ, m, wrap, s, hs, hembeds, hm⟩ := h t ht
    exact ⟨σ, m, wrap, s, hs, hembeds, hm.toKeeps⟩
  good := by
    intro t a ht ha
    obtain ⟨σ, m, wrap, s, rfl, hembeds, hm⟩ := h t ht
    rw [hembeds.generate] at ha
    exact hm.good s a ht ha

theorem Spends.of_covered {inv : τ → Prop} {pending : τ → α → Prop}
    (h : M.Covered inv fun m wrap =>
      m.Spends (fun s => inv (wrap s)) (fun s => pending (wrap s))) :
    M.Spends inv pending where
  toKeeps := .of_covered fun t ht => by
    obtain ⟨σ, m, wrap, s, hs, hembeds, hm⟩ := h t ht
    exact ⟨σ, m, wrap, s, hs, hembeds, hm.toKeeps⟩
  spent := by
    intro t a ht ha
    obtain ⟨σ, m, wrap, s, rfl, hembeds, hm⟩ := h t ht
    rw [hembeds.generate] at ha ⊢
    exact hm.spent s a ht ha
  generate_pending := by
    intro t a ht ha
    obtain ⟨σ, m, wrap, s, rfl, hembeds, hm⟩ := h t ht
    rw [hembeds.generate] at ha
    exact hm.generate_pending s a ht ha
  close_pending := by
    intro t a ht ha
    obtain ⟨σ, m, wrap, s, rfl, hembeds, hm⟩ := h t ht
    rw [hembeds.close] at ha
    exact hm.close_pending s a ht ha

end Machine
end SynthData
