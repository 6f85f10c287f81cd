import SynthData.Generator.Sample
import SynthData.Proofs.Generator.Wrapped
import SynthData.Weight.Individual

/-!
# Sources that are read into memory

A sampler and a generator of weighted items read their source into memory, when they
are initialized and at every reset.  They differ in what they keep and in what they
make of the values.  A `Loader` is what they have in common: it says where the source
and the context of the initialization are kept, and how a source that has begun a
pass is read.

`Machine.Loads` says that a generator goes by a loader.  `Loads.init_cases` and
`Loads.reset_cases` are all that its calls can do, and the lemmas after them what the
answer of the source leads to.
-/
namespace SynthData

variable {σ τ ν α β : Type}

/-- How a generator reads its source into memory. -/
structure Loader (σ τ : Type) where
  /-- The name under which failures are reported. -/
  owner : String
  wrapped : τ → Wrapped σ
  /-- The context of the initialization. -/
  context : τ → Option Context
  /-- The state with another source and another context. -/
  place : τ → Wrapped σ → Option Context → τ
  /-- Reads the source, and keeps what it makes of the values. -/
  load : Context → τ → Streams → Except Fault Unit × τ × Streams
  wrapped_place : ∀ t w known, wrapped (place t w known) = w
  context_place : ∀ t w known, context (place t w known) = known
  place_place : ∀ t w known w' known', place (place t w known) w' known' = place t w' known'
  place_self : ∀ t, place t (wrapped t) (context t) = t
  /-- Reading changes no phase. -/
  load_phase : ∀ context t streams,
    (wrapped (load context t streams).2.1).phase = (wrapped t).phase
  /-- Reading that fails has touched nothing but the source. -/
  load_failed : ∀ known t streams fault, (load known t streams).1 = .error fault →
    ∃ source, (load known t streams).2.1 = place t ⟨source, (wrapped t).phase⟩ (context t)

namespace Loader

variable (L : Loader σ τ) (m : Machine σ α)

/-- Initializes the source, and reads it with the context, which is kept. -/
def init (context : Context) (t : τ) (streams : Streams) : Except Fault Unit × τ × Streams :=
  match (L.wrapped t).init L.owner m context streams with
  | (.error fault, w, streams) => (.error fault, L.place t w (L.context t), streams)
  | (.ok _, w, streams) => L.load context (L.place t w (some context)) streams

/-- Resets the source, and reads it with the context of the initialization. -/
def reset (t : τ) (streams : Streams) : Except Fault Unit × τ × Streams :=
  match (L.wrapped t).phase with
  | .created =>
    let (context, streams) := streams.defaultContext
    L.init m context t streams
  | _ =>
    match (L.wrapped t).reset L.owner m streams with
    | (.error fault, w, streams) => (.error fault, L.place t w (L.context t), streams)
    | (.ok _, w, streams) =>
      match L.context t with
      | some context => L.load context (L.place t w (L.context t)) streams
      | none =>
        let (context, streams) := streams.defaultContext
        L.load context (L.place t w (L.context t)) streams

/-- Reading keeps what holds of the source and of the rest of the state. -/
structure Keeps (inv : σ → Prop) (rest : τ → Prop) : Prop where
  place : ∀ t w known, rest t → rest (L.place t w known)
  load : ∀ context t streams, inv (L.wrapped t).source → rest t →
    inv (L.wrapped (L.load context t streams).2.1).source ∧ rest (L.load context t streams).2.1

end Loader

/-- **A generator that goes by a loader** when it is initialized or reset. -/
structure Machine.Loads (M : Machine τ β) (m : Machine σ α) (L : Loader σ τ) : Prop where
  init : ∀ context t streams, M.init context t streams = L.init m context t streams
  reset : ∀ t streams, M.reset t streams = L.reset m t streams
  phase : ∀ t, M.phase t = (L.wrapped t).phase

namespace Machine.Loads

variable {M : Machine τ β} {m : Machine σ α} {L : Loader σ τ} {t : τ} {context : Context}
  {streams : Streams} {fault : Fault}

/-- The source is not initialized, or it is and then it is read. -/
theorem init_cases (hM : M.Loads m L) (context : Context) (t : τ) (streams : Streams) :
    let opened := (L.wrapped t).init L.owner m context streams
    (∃ fault, opened.1 = .error fault ∧ M.init context t streams =
        (.error fault, L.place t opened.2.1 (L.context t), opened.2.2)) ∨
      (opened.1 = .ok () ∧ M.init context t streams =
        L.load context (L.place t opened.2.1 (some context)) opened.2.2) := by
  rw [hM.init, Loader.init]
  rcases (L.wrapped t).init L.owner m context streams with ⟨fault | _, w, streams'⟩
  · exact Or.inl ⟨fault, rfl, rfl⟩
  · exact Or.inr ⟨rfl, rfl⟩

theorem reset_created (hM : M.Loads m L) (h : (L.wrapped t).phase = .created)
    (streams : Streams) :
    M.reset t streams = M.init streams.defaultContext.1 t streams.defaultContext.2 := by
  rw [hM.reset, hM.init, Loader.reset, h]

/-- The source is not reset, or it is and then it is read, in the context of the
initialization if that is known. -/
theorem reset_cases (hM : M.Loads m L) (h : (L.wrapped t).phase ≠ .created)
    (streams : Streams) :
    let again := (L.wrapped t).reset L.owner m streams
    (∃ fault, again.1 = .error fault ∧ M.reset t streams =
        (.error fault, L.place t again.2.1 (L.context t), again.2.2)) ∨
      ∃ context streams', (∀ known, L.context t = some known → context = known) ∧
        M.reset t streams =
          L.load context (L.place t again.2.1 (L.context t)) streams' := by
  have hreset : M.reset t streams = _ := hM.reset t streams
  rw [Loader.reset] at hreset
  rcases hagain : (L.wrapped t).reset L.owner m streams with ⟨fault | _, w, streams'⟩
  all_goals rw [hagain] at hreset
  · refine Or.inl ⟨fault, rfl, ?_⟩
    split at hreset
    · exact absurd ‹_› h
    · exact hreset
  · right
    split at hreset
    · exact absurd ‹_› h
    · cases hknown : L.context t with
      | some known =>
        refine ⟨known, streams', fun _ heq => Option.some.inj heq, ?_⟩
        rw [hreset, hknown]
      | none =>
        refine ⟨streams'.defaultContext.1, streams'.defaultContext.2, nofun, ?_⟩
        rw [hreset, hknown]

/-! ## What the source decides -/

theorem init_refused (hM : M.Loads m L) (h : (L.wrapped t).phase ≠ .created)
    (context : Context) (streams : Streams) :
    ∃ fault, M.init context t streams = (.error fault, t, streams) ∧
      fault.kind = .illegalState := by
  obtain ⟨fault, hinit, hkind⟩ := Wrapped.init_refused L.owner m h context streams
  refine ⟨fault, ?_, hkind⟩
  rw [hM.init, Loader.init, hinit]
  simp only [L.place_self]

theorem init_state (hM : M.Loads m L) (h : (L.wrapped t).phase ≠ .created) (context : Context)
    (streams : Streams) : (M.init context t streams).2.1 = t := by
  obtain ⟨fault, hinit, -⟩ := hM.init_refused h context streams
  rw [hinit]

/-- A source that fails to be initialized leaves its owner new. -/
theorem init_failed (hM : M.Loads m L) (hphase : (L.wrapped t).phase = .created)
    (h : (m.init context (L.wrapped t).source streams).1 = .error fault) :
    M.init context t streams = (.error fault,
      L.place t ⟨(m.init context (L.wrapped t).source streams).2.1, .created⟩ (L.context t),
      (m.init context (L.wrapped t).source streams).2.2) := by
  rw [hM.init, Loader.init, Wrapped.init_of_source_error L.owner hphase h]

theorem init_loads (hM : M.Loads m L) (hphase : (L.wrapped t).phase = .created)
    (h : (m.init context (L.wrapped t).source streams).1 = .ok ()) :
    M.init context t streams = L.load context
      (L.place t ⟨(m.init context (L.wrapped t).source streams).2.1, .running⟩ (some context))
      (m.init context (L.wrapped t).source streams).2.2 := by
  rw [hM.init, Loader.init, Wrapped.init_of_source_ok L.owner hphase h]

theorem reset_refused (hM : M.Loads m L) (h : (L.wrapped t).phase = .closed)
    (streams : Streams) : M.reset t streams = (.error (.alreadyClosed L.owner), t, streams) := by
  rw [hM.reset, Loader.reset, h, Wrapped.reset_refused L.owner m h]
  simp only [L.place_self]

theorem reset_failed (hM : M.Loads m L) (hphase : (L.wrapped t).phase = .running)
    (h : (m.reset (L.wrapped t).source streams).1 = .error fault) :
    M.reset t streams = (.error fault,
      L.place t ⟨(m.reset (L.wrapped t).source streams).2.1, .running⟩ (L.context t),
      (m.reset (L.wrapped t).source streams).2.2) := by
  rw [hM.reset, Loader.reset, hphase, Wrapped.reset_of_source_error L.owner hphase h]

theorem reset_loads (hM : M.Loads m L) (hphase : (L.wrapped t).phase = .running)
    (hcontext : L.context t = some context)
    (h : (m.reset (L.wrapped t).source streams).1 = .ok ()) :
    M.reset t streams = L.load context
      (L.place t ⟨(m.reset (L.wrapped t).source streams).2.1, .running⟩ (some context))
      (m.reset (L.wrapped t).source streams).2.2 := by
  rw [hM.reset, Loader.reset, hphase, Wrapped.reset_of_source_ok L.owner hphase h, hcontext]

/-- A generator that runs goes on running when it is reset, whatever fails. -/
theorem phase_reset (hM : M.Loads m L) (h : (L.wrapped t).phase = .running)
    (streams : Streams) : (L.wrapped (M.reset t streams).2.1).phase = .running := by
  have hagain := Wrapped.phase_reset L.owner m h streams
  rcases hM.reset_cases (t := t) (by rw [h]; nofun) streams with
    ⟨fault, -, hreset⟩ | ⟨context, streams', -, hreset⟩
  · rw [hreset, L.wrapped_place]
    exact hagain
  · rw [hreset, L.load_phase, L.wrapped_place]
    exact hagain

/-- **A reset that fails has touched nothing but the source.** -/
theorem place_of_reset_failed (hM : M.Loads m L) (h : (L.wrapped t).phase = .running)
    (hfault : (M.reset t streams).1 = .error fault) :
    ∃ source, (M.reset t streams).2.1 = L.place t ⟨source, .running⟩ (L.context t) := by
  have hagain := Wrapped.phase_reset L.owner m h streams
  rcases hM.reset_cases (t := t) (by rw [h]; nofun) streams with
    ⟨fault', -, hreset⟩ | ⟨context, streams', -, hreset⟩
  · rw [hreset, ← hagain]
    exact ⟨_, rfl⟩
  · rw [hreset] at hfault ⊢
    obtain ⟨source, hsource⟩ := L.load_failed _ _ _ _ hfault
    rw [hsource, L.place_place, L.wrapped_place, L.context_place, hagain]
    exact ⟨source, rfl⟩

/-! ## What is known of the source -/

variable {inv : σ → Prop} {rest : τ → Prop}

theorem init_keeps (hM : M.Loads m L) (hs : m.Keeps inv) (hL : L.Keeps inv rest)
    (context : Context) (streams : Streams) (h : inv (L.wrapped t).source ∧ rest t) :
    inv (L.wrapped (M.init context t streams).2.1).source ∧ rest (M.init context t streams).2.1 := by
  have hopens := (Wrapped.init_opens L.owner m (L.wrapped t) context streams).keeps hs h.1
  rcases hM.init_cases context t streams with ⟨fault, -, hinit⟩ | ⟨-, hinit⟩
  · rw [hinit, L.wrapped_place]
    exact ⟨hopens, hL.place _ _ _ h.2⟩
  · rw [hinit]
    exact hL.load _ _ _ (by rwa [L.wrapped_place]) (hL.place _ _ _ h.2)

theorem reset_keeps (hM : M.Loads m L) (hs : m.Keeps inv) (hL : L.Keeps inv rest)
    (streams : Streams) (h : inv (L.wrapped t).source ∧ rest t) :
    inv (L.wrapped (M.reset t streams).2.1).source ∧ rest (M.reset t streams).2.1 := by
  by_cases hcreated : (L.wrapped t).phase = .created
  · rw [hM.reset_created hcreated]
    exact hM.init_keeps hs hL _ _ h
  · have hrestarts := (Wrapped.reset_restarts L.owner m (L.wrapped t) streams).keeps hs h.1
    rcases hM.reset_cases hcreated streams with ⟨fault, -, hreset⟩ | ⟨context, streams', -, hreset⟩
    · rw [hreset, L.wrapped_place]
      exact ⟨hrestarts, hL.place _ _ _ h.2⟩
    · rw [hreset]
      exact hL.load _ _ _ (by rwa [L.wrapped_place]) (hL.place _ _ _ h.2)

end Machine.Loads

/-! ## Samplers -/

namespace Sample

/-- How a sampler reads its source. -/
def loader (m : Machine σ α) (d : Distribution ν) (unique : Bool) :
    Loader σ (Sample σ ν α) where
  owner := owner
  wrapped := wrapped
  context := context
  place s w known := { s with wrapped := w, context := known }
  load := materialize m d unique
  wrapped_place _ _ _ := rfl
  context_place _ _ _ := rfl
  place_place _ _ _ _ _ := rfl
  place_self _ := rfl
  load_phase := by
    intro context s streams
    unfold materialize
    split
    · rfl
    · split <;> rfl
  load_failed := by
    intro known s streams fault h
    unfold materialize at h ⊢
    split
    · exact ⟨_, rfl⟩
    · split
      · exact ⟨_, rfl⟩
      · rename_i hread _ _ _ hchoose
        simp [hread, hchoose] at h

theorem loads (m : Machine σ α) (d : Distribution ν) (unique : Bool) :
    (machine m d unique).Loads m (loader m d unique) where
  init _ _ _ := rfl
  reset _ _ := rfl
  phase _ := rfl

end Sample

/-! ## Weighted items -/

namespace Individual

/-- How a generator of weighted items reads its source. -/
def loader (m : Machine σ α) (weight : α → Float) : Loader σ (Individual σ α) where
  owner := owner
  wrapped := wrapped
  context := context
  place g w known := { g with wrapped := w, context := known }
  load := materialize m weight
  wrapped_place _ _ _ := rfl
  context_place _ _ _ := rfl
  place_place _ _ _ _ _ := rfl
  place_self _ := rfl
  load_phase := by
    intro context g streams
    unfold materialize
    split
    · rfl
    · split <;> rfl
  load_failed := by
    intro known g streams fault h
    unfold materialize at h ⊢
    split
    · exact ⟨_, rfl⟩
    · split
      · exact ⟨_, rfl⟩
      · rename_i hread _ _ hweigh
        simp [hread, hweigh] at h

theorem loads (m : Machine σ α) (weight : α → Float) :
    (machine m weight).Loads m (loader m weight) where
  init _ _ _ := rfl
  reset _ _ := rfl
  phase _ := rfl

end Individual
end SynthData
