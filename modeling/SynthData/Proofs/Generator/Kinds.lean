import SynthData.Cumulative.Generator
import SynthData.Generator.Expand
import SynthData.Generator.Filtered
import SynthData.Generator.Machine
import SynthData.Generator.Record
import SynthData.Generator.Sample
import SynthData.Generator.Shared
import SynthData.Grid.Generator
import SynthData.Proofs.Generator.Loader
import SynthData.Temporal.Instant
import SynthData.Walk.Basic
import SynthData.Weight.Generator
import SynthData.Weight.Individual

/-!
# Initialization that fails

`Kind` lists the kinds of generators, over any sources, distributions and walks
and with any parameters, so that a statement about every generator can be made.

When the initialization of a new generator fails, the generator should still be
new: then a call of `generate` is refused, and the failure cannot be mistaken for
a generator that has run out.  Of all kinds but two this is true without
exception.  The two that read their source into memory run as soon as their
source does, so they stay running if reading, or what is made of the values,
fails afterwards.  `init_failed_iff` says exactly this.
-/
namespace SynthData

theorem Phase.requireRunning_error (p : Phase) (owner : String) (h : p ≠ .running) :
    ∃ fault, p.requireRunning owner = .error fault := by
  cases p with
  | running => exact absurd rfl h
  | created => exact ⟨_, rfl⟩
  | closed => exact ⟨_, rfl⟩

/-- **The kinds of generators.** -/
inductive Kind : Type → Type → Type 1 where
  /-- Values from fixed data. -/
  | leaf {κ α : Type} (owner : String) (start : κ → κ) (next : κ → Option α × κ)
    (threadSafe : κ → Bool) : Kind (Leaf κ) α
  /-- The values of a source, changed by a function. -/
  | mapped {σ α β : Type} (owner : String) (source : Machine σ α) (f : α → β) :
    Kind (Wrapped σ) β
  /-- The values of a source through a pool. -/
  | expand {σ α : Type} (source : Machine σ α) (unique : Bool) (quota : Float) :
    Kind (Expand σ α) α
  /-- The values of a source that were not there before. -/
  | distinct {σ α : Type} [BEq α] [Hashable α] (source : Machine σ α) (explicit : Bool) :
    Kind (Unique σ α) α
  /-- The first values of a source. -/
  | head {σ α : Type} (source : Machine σ α) (size : Nat) : Kind (Head σ) α
  /-- A source with a single handle. -/
  | shared {σ α : Type} (source : Machine σ α) : Kind (Phase × Shared σ) α
  /-- One of the handles of a source. -/
  | handle {σ α : Type} (source : Machine σ α) (number : Nat) : Kind (SharedHandles σ) α
  /-- Records with the values of several sources. -/
  | record {σ : Type} (fields : Fields σ) : Kind (Record σ) Value
  /-- Grid points in the order of a walk. -/
  | grid {ω : Type} (owner : String) (walk : IndexWalk ω) : Kind (Grid ω) Number
  /-- Grid points by weight. -/
  | weighted : Kind Weighted Number
  /-- Numbers by an inverse distribution function. -/
  | inverse : Kind Inverse Number
  | days {ν : Type} (range : DateRange) (d : Distribution ν) (unique : Bool) : Kind (Days ν) Date
  | instants {ν τ : Type} (range : InstantRange) (d : Distribution ν) (t : Distribution τ)
    (unique : Bool) : Kind (Instants ν τ) DateTime
  /-- The values of a source at positions that a distribution chooses. -/
  | sample {σ ν α : Type} (source : Machine σ α) (d : Distribution ν) (unique : Bool) :
    Kind (Sample σ ν α) α
  /-- The values of a source by their own weights. -/
  | individual {σ α : Type} (source : Machine σ α) (weight : α → Float) : Kind (Individual σ α) α

namespace Kind

/-- The machine of a kind. -/
def machine : {σ α : Type} → Kind σ α → Machine σ α
  | _, _, leaf owner start next threadSafe => Leaf.machine owner start next threadSafe
  | _, _, mapped owner source f => Mapped.machine owner source f
  | _, _, expand source unique quota => Expand.machine source unique quota
  | _, _, @distinct _ _ _ _ source explicit => Unique.machine source explicit
  | _, _, head source size => Head.machine source size
  | _, _, shared source => Shared.machine source
  | _, _, handle source number => SharedHandles.machine source number
  | _, _, record fields => Record.machine fields
  | _, _, grid owner walk => Grid.machine owner walk
  | _, _, weighted => Weighted.machine
  | _, _, inverse => Inverse.machine
  | _, _, days range d unique => Days.machine range d unique
  | _, _, instants range d t unique => Instants.machine range d t unique
  | _, _, sample source d unique => Sample.machine source d unique
  | _, _, individual source weight => Individual.machine source weight

/-- A generator that reads its source into memory has got as far as having
initialized it. -/
def Reads (context : Context) (streams : Streams) : {σ α : Type} → Kind σ α → σ → Prop
  | _, _, sample source _ _, s => (source.init context s.wrapped.source streams).1 = .ok ()
  | _, _, individual source _, g => (source.init context g.wrapped.source streams).1 = .ok ()
  | _, _, leaf .., _ | _, _, mapped .., _ | _, _, expand .., _ | _, _, distinct .., _
  | _, _, head .., _ | _, _, shared .., _ | _, _, handle .., _ | _, _, record .., _
  | _, _, grid .., _ | _, _, weighted, _ | _, _, inverse, _ | _, _, days .., _
  | _, _, instants .., _ => False

/-! ## New generators -/

variable {σ α : Type}

/-- A generator that does not run refuses to generate because of its phase, and
nothing moves. -/
theorem generate_refused (k : Kind σ α) {s : σ} (h : k.machine.phase s ≠ .running) :
    ∃ owner fault, (k.machine.phase s).requireRunning owner = .error fault ∧
      k.machine.generate s = (.error fault, s) := by
  -- each kind asks its own phase before it asks its source or draws anything
  cases k with
  | leaf owner start next threadSafe =>
    obtain ⟨fault, hfault⟩ := s.phase.requireRunning_error owner h
    exact ⟨_, fault, hfault, by simp [machine, Leaf.machine, hfault]⟩
  | mapped owner source f =>
    obtain ⟨fault, hfault⟩ := s.phase.requireRunning_error owner h
    exact ⟨_, fault, hfault, by simp [machine, Mapped.machine, Wrapped.generate, hfault]⟩
  | expand source unique quota =>
    obtain ⟨fault, hfault⟩ := s.wrapped.phase.requireRunning_error Expand.owner h
    exact ⟨_, fault, hfault, by simp [machine, Expand.machine, hfault]⟩
  | distinct source explicit =>
    obtain ⟨fault, hfault⟩ := s.wrapped.phase.requireRunning_error Unique.owner h
    refine ⟨_, fault, hfault, ?_⟩
    simp only [machine, Unique.machine]
    unfold Unique.seek
    simp [Wrapped.generate, hfault]
  | head source size =>
    obtain ⟨fault, hfault⟩ := s.wrapped.phase.requireRunning_error Head.owner h
    exact ⟨_, fault, hfault, by simp [machine, Head.machine, hfault]⟩
  | shared source =>
    obtain ⟨fault, hfault⟩ := s.1.requireRunning_error Shared.owner h
    exact ⟨_, fault, hfault, by simp [machine, Shared.machine, Shared.generate, hfault]⟩
  | handle source number =>
    obtain ⟨fault, hfault⟩ := (s.handles.getD number .closed).requireRunning_error Shared.owner h
    exact ⟨_, fault, hfault,
      by simp only [machine, SharedHandles.machine, Shared.generate, hfault]⟩
  | record fields =>
    obtain ⟨fault, hfault⟩ := s.phase.requireRunning_error Record.owner h
    exact ⟨_, fault, hfault, by simp [machine, Record.machine, hfault]⟩
  | grid owner walk =>
    obtain ⟨fault, hfault⟩ := s.phase.requireRunning_error owner h
    exact ⟨_, fault, hfault, by simp [machine, Grid.machine, hfault]⟩
  | weighted =>
    obtain ⟨fault, hfault⟩ := s.phase.requireRunning_error Weighted.owner h
    exact ⟨_, fault, hfault, by simp [machine, Weighted.machine, hfault]⟩
  | inverse =>
    obtain ⟨fault, hfault⟩ := s.phase.requireRunning_error Inverse.owner h
    exact ⟨_, fault, hfault, by simp [machine, Inverse.machine, hfault]⟩
  | days range d unique =>
    obtain ⟨fault, hfault⟩ := s.phase.requireRunning_error Days.owner h
    exact ⟨_, fault, hfault, by simp [machine, Days.machine, hfault]⟩
  | instants range d t unique =>
    obtain ⟨fault, hfault⟩ := s.phase.requireRunning_error Instants.owner h
    exact ⟨_, fault, hfault, by simp [machine, Instants.machine, hfault]⟩
  | sample source d unique =>
    obtain ⟨fault, hfault⟩ := s.wrapped.phase.requireRunning_error Sample.owner h
    exact ⟨_, fault, hfault, by simp [machine, Sample.machine, hfault]⟩
  | individual source weight =>
    obtain ⟨fault, hfault⟩ := s.wrapped.phase.requireRunning_error Individual.owner h
    exact ⟨_, fault, hfault, by simp [machine, Individual.machine, hfault]⟩

/-- A new generator of any kind refuses to generate, with a failure that says that
it is new. -/
theorem generate_created (k : Kind σ α) {s : σ} (h : k.machine.phase s = .created) :
    ∃ owner, (k.machine.generate s).1 = .error (.notInitialized owner) := by
  obtain ⟨owner, fault, hfault, hgenerate⟩ := generate_refused k (s := s) (by rw [h]; nofun)
  rw [h] at hfault
  obtain rfl := Except.error.inj hfault
  exact ⟨owner, by rw [hgenerate]⟩

end Kind

/-! ## Failing initializations -/

variable {σ τ α β κ ω ν : Type}

/-- A new generator whose initialization fails is still new. -/
def Machine.StaysNew (m : Machine σ α) : Prop :=
  ∀ context s streams fault, m.phase s = .created → (m.init context s streams).1 = .error fault →
    m.phase (m.init context s streams).2.1 = .created

theorem Leaf.staysNew (owner : String) (start : κ → κ) (next : κ → Option α × κ)
    (threadSafe : κ → Bool) : (Leaf.machine owner start next threadSafe).StaysNew := by
  rintro context ⟨cursor, phase⟩ streams fault hs h
  obtain rfl : phase = .created := hs
  cases h

theorem Mapped.staysNew (owner : String) (m : Machine σ α) (f : α → β) :
    (Mapped.machine owner m f).StaysNew :=
  fun _ _ _ _ hs h => (Wrapped.phase_of_init_error h).trans hs

theorem Expand.staysNew (m : Machine σ α) (unique : Bool) (quota : Float) :
    (Expand.machine m unique quota).StaysNew := by
  intro context e streams fault hs h
  rcases hinit : e.wrapped.init owner m context streams with ⟨fault' | _, w, streams'⟩
  · have hphase := Wrapped.phase_of_init_error (congrArg Prod.fst hinit)
    rw [hinit] at hphase
    simpa [machine, hinit] using hphase.trans hs
  · simp [machine, hinit] at h

theorem Unique.staysNew [BEq α] [Hashable α] (m : Machine σ α) (explicit : Bool) :
    (Unique.machine m explicit).StaysNew := by
  intro context u streams fault hs h
  exact (Wrapped.phase_of_init_error (w := u.wrapped) h).trans hs

theorem Head.staysNew (m : Machine σ α) (size : Nat) : (Head.machine m size).StaysNew := by
  intro context head streams fault hs h
  rcases hinit : head.wrapped.init owner m context streams with ⟨fault' | _, w, streams'⟩
  · have hphase := Wrapped.phase_of_init_error (congrArg Prod.fst hinit)
    rw [hinit] at hphase
    simpa [machine, hinit] using hphase.trans hs
  · simp [machine, hinit] at h

/-- A handle runs only if the source does. -/
theorem Shared.phase_of_init_error {m : Machine σ α} {context : Context} {shared : Shared σ}
    {streams : Streams} {fault : Fault}
    (h : (Shared.init m context .created shared streams).1 = .error fault) :
    (Shared.init m context .created shared streams).2.1 = .created := by
  unfold Shared.init at h ⊢
  dsimp only at h ⊢
  by_cases hinitialized : shared.initialized
  · rw [if_pos hinitialized] at h
    cases h
  · rw [if_neg hinitialized] at h ⊢
    rcases hinit : m.init context shared.source streams with ⟨fault' | _, source, streams'⟩
    · rfl
    · rw [hinit] at h
      cases h

theorem Shared.staysNew (m : Machine σ α) : (Shared.machine m).StaysNew := by
  rintro context ⟨phase, shared⟩ streams fault hs h
  obtain rfl : phase = .created := hs
  exact Shared.phase_of_init_error h

theorem SharedHandles.staysNew (m : Machine σ α) (number : Nat) :
    (SharedHandles.machine m number).StaysNew := by
  rintro context ⟨shared, handles⟩ streams fault hs h
  have hcreated : handles.getD number .closed = .created := hs
  have hinit : (Shared.init m context .created shared streams).1 = .error fault := by
    rw [← hcreated]
    exact h
  have hlt : number < handles.size := by
    refine Nat.lt_of_not_le fun hle => ?_
    rw [Array.getD_eq_getD_getElem?, Array.getElem?_eq_none hle] at hcreated
    cases hcreated
  show (handles.setIfInBounds number
    (Shared.init m context (handles.getD number .closed) shared streams).2.1).getD number .closed
      = .created
  rw [hcreated, Shared.phase_of_init_error hinit]
  simp [Array.getD_eq_getD_getElem?, hlt]

theorem Record.staysNew (fields : Fields σ) : (Record.machine fields).StaysNew := by
  rintro context ⟨states, phase⟩ streams fault hs h
  obtain rfl : phase = .created := hs
  rcases hinit : fields.init context states streams with ⟨fault' | _, states', streams'⟩
  · simp [machine, Record.init, Phase.requireCreated, hinit]
  · simp [machine, Record.init, Phase.requireCreated, hinit] at h

theorem Grid.staysNew (owner : String) (walk : IndexWalk ω) :
    (Grid.machine owner walk).StaysNew := by
  intro context g streams fault hs h
  simp only [machine, Grid.init] at h ⊢
  split
  · exact hs
  · split
    · exact hs
    · split
      · exact hs
      · simp_all

theorem Weighted.staysNew : Weighted.machine.StaysNew := by
  intro context w streams fault hs h
  simp only [machine, Weighted.init] at h ⊢
  split
  · exact hs
  · split
    · exact hs
    · split
      · exact hs
      · split
        · exact hs
        · simp_all

theorem Inverse.staysNew : Inverse.machine.StaysNew := by
  intro context g streams fault hs h
  simp only [machine, Inverse.init] at h ⊢
  split
  · exact hs
  · split
    · exact hs
    · split
      · simp_all
      · exact hs

theorem Days.staysNew (range : DateRange) (d : Distribution ν) (unique : Bool) :
    (Days.machine range d unique).StaysNew := by
  intro context g streams fault hs h
  simp only [machine, Days.init] at h ⊢
  split
  · exact hs
  · split
    · exact hs
    · split
      · exact hs
      · split
        · exact hs
        · simp_all

theorem Instants.staysNew (range : InstantRange) (d : Distribution ν) (t : Distribution τ)
    (unique : Bool) : (Instants.machine range d t unique).StaysNew := by
  intro context g streams fault hs h
  simp only [machine, Instants.init] at h ⊢
  split
  · exact hs
  · split
    · exact hs
    · split
      · exact hs
      · split
        · exact hs
        · split
          · exact hs
          · simp_all

/-! ## All kinds -/

namespace Kind

variable {k : Kind σ α} {context : Context} {s : σ} {streams : Streams} {fault : Fault}

/-- **A generator that does not get to reading its source stays new** when its
initialization fails. -/
theorem phase_of_not_reads (hs : k.machine.phase s = .created)
    (h : (k.machine.init context s streams).1 = .error fault)
    (hreads : ¬ k.Reads context streams s) :
    k.machine.phase (k.machine.init context s streams).2.1 = .created := by
  cases k with
  | leaf owner start next threadSafe =>
    exact Leaf.staysNew owner start next threadSafe context s streams fault hs h
  | mapped owner source f => exact Mapped.staysNew owner source f context s streams fault hs h
  | expand source unique quota =>
    exact Expand.staysNew source unique quota context s streams fault hs h
  | distinct source explicit => exact Unique.staysNew source explicit context s streams fault hs h
  | head source size => exact Head.staysNew source size context s streams fault hs h
  | shared source => exact Shared.staysNew source context s streams fault hs h
  | handle source number => exact SharedHandles.staysNew source number context s streams fault hs h
  | record fields => exact Record.staysNew fields context s streams fault hs h
  | grid owner walk => exact Grid.staysNew owner walk context s streams fault hs h
  | weighted => exact Weighted.staysNew context s streams fault hs h
  | inverse => exact Inverse.staysNew context s streams fault hs h
  | days range d unique => exact Days.staysNew range d unique context s streams fault hs h
  | instants range d t unique =>
    exact Instants.staysNew range d t unique context s streams fault hs h
  -- the last two run as soon as their source does, so it must be the source that failed
  | sample source d unique =>
    cases hsource : (source.init context s.wrapped.source streams).1 with
    | ok _ => exact absurd hsource hreads
    | error fault' =>
      have hinit := (Sample.loads source d unique).init_failed hs hsource
      exact congrArg (·.2.1.wrapped.phase) hinit
  | individual source weight =>
    cases hsource : (source.init context s.wrapped.source streams).1 with
    | ok _ => exact absurd hsource hreads
    | error fault' =>
      have hinit := (Individual.loads source weight).init_failed hs hsource
      exact congrArg (·.2.1.wrapped.phase) hinit

/-- A generator that gets to reading its source runs from then on. -/
theorem phase_of_reads (hs : k.machine.phase s = .created) (hreads : k.Reads context streams s) :
    k.machine.phase (k.machine.init context s streams).2.1 = .running := by
  cases k with
  | sample source d unique =>
    have hinit := (Sample.loads source d unique).init_loads hs hreads
    exact (congrArg (·.2.1.wrapped.phase) hinit).trans
      ((Sample.loader source d unique).load_phase _ _ _)
  | individual source weight =>
    have hinit := (Individual.loads source weight).init_loads hs hreads
    exact (congrArg (·.2.1.wrapped.phase) hinit).trans
      ((Individual.loader source weight).load_phase _ _ _)
  | _ => exact hreads.elim

/-- **When a failed initialization is told from running out.**  After the
initialization of a new generator has failed, the generator is new and refuses to
generate, unless it is one that reads its source into memory and had already
initialized that source; then it runs. -/
theorem init_failed_iff (hs : k.machine.phase s = .created)
    (h : (k.machine.init context s streams).1 = .error fault) :
    let s' := (k.machine.init context s streams).2.1
    (k.machine.phase s' = .created ∧
        ∃ refusal, (k.machine.generate s').1 = .error refusal ∧ refusal.kind = .illegalState) ↔
      ¬ k.Reads context streams s := by
  constructor
  · rintro ⟨hcreated, -⟩ hreads
    rw [phase_of_reads hs hreads] at hcreated
    cases hcreated
  · intro hreads
    have hcreated := phase_of_not_reads hs h hreads
    obtain ⟨owner, hrefusal⟩ := generate_created k hcreated
    exact ⟨hcreated, _, hrefusal, rfl⟩

/-- A range that is not valid leaves a grid generator new. -/
theorem init_failed_iff_reversed :
    let k : Kind (Grid Walk) Number := .grid "WedgeSequence" Walk.kind
    let s : Grid Walk := .new (.long 5 1 1) (.wedge .new)
    let streams := Streams.start fun _ => .ofSeed 0
    k.machine.phase s = .created ∧
      (k.machine.init ⟨{}, 0⟩ s streams).1 = .error (.minAboveMax (.long 5) (.long 1)) ∧
      k.machine.phase (k.machine.init ⟨{}, 0⟩ s streams).2.1 = .created ∧
      ∃ refusal, (k.machine.generate (k.machine.init ⟨{}, 0⟩ s streams).2.1).1 = .error refusal ∧
        refusal.kind = .illegalState := by
  intro k s streams
  have hs : k.machine.phase s = .created := rfl
  have h : (k.machine.init ⟨{}, 0⟩ s streams).1 = .error (.minAboveMax (.long 5) (.long 1)) := rfl
  exact ⟨hs, h, (init_failed_iff hs h).mpr id⟩

/-- Values weighed by a field. -/
def weightless : Kind (Individual (Leaf (Listed Value)) Value) Value :=
  .individual Listed.machine (featureWeight "w")

/-- Two texts, which have no fields. -/
def texts : Individual (Leaf (Listed Value)) Value := .new (Listed.new #[.text "a", .text "b"])

/-- Weights that are all zero are noticed only after the source has been read:
the failure leaves a generator that runs and seems to have run out. -/
theorem init_failed_weightless :
    weightless.machine.phase texts = .created ∧
      (weightless.machine.init ⟨{}, 0⟩ texts (.start fun _ => .ofSeed 0)).1 =
        .error (.zeroTotalWeight 2) ∧
      weightless.machine.phase
        (weightless.machine.init ⟨{}, 0⟩ texts (.start fun _ => .ofSeed 0)).2.1 = .running ∧
      (weightless.machine.generate
        (weightless.machine.init ⟨{}, 0⟩ texts (.start fun _ => .ofSeed 0)).2.1).1 = .ok none :=
  ⟨rfl, rfl, rfl, rfl⟩

end Kind
end SynthData
