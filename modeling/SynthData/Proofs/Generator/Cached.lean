import Mathlib.Data.ENat.Lattice
import SynthData.Proofs.Generator.Completeness
import SynthData.Strategy.Basic

/-!
# What is read in advance

A sampler and a generator of weighted items read the beginning of their source's pass into a list.
The pass may be of any length, or have no end (`Machine.passLength`).  The list holds as many values
as there are, but no more than the cache may hold, and whether there are more is known because the
source is asked once more than it has given values (`Machine.Cached`).

Both kinds begin every pass in this way: with the context of their initialization, which no other
call changes, and from wherever the initialization or the reset has put the source
(`Machine.Caches`).
-/
namespace SynthData

variable {σ τ ν α β : Type}

namespace Machine

/-! ## Passes of any length -/

variable (m : Machine σ α) {s s' : σ} {limit : ℕ} {values : List α}

/-- The number of values that a state hands out before it has none, if none of the calls fails. -/
noncomputable def passLength (s : σ) : ℕ∞ :=
  ⨅ (i : ℕ) (_ : m.answer i s = .ok none), (i : ℕ∞)

/-- The first answers are the values of a list. -/
def StartsWith (s : σ) (values : List α) : Prop :=
  ∀ i < values.length, m.answer i s = .ok values[i]?

variable {m}

theorem le_passLength_iff {n : ℕ} :
    (n : ℕ∞) ≤ m.passLength s ↔ ∀ i < n, m.answer i s ≠ .ok none := by
  rw [passLength, le_iInf₂_iff]
  refine forall_congr' fun i => ⟨fun h hi hnone => ?_, fun h hnone => ?_⟩
  · exact absurd (Nat.cast_le.mp (h hnone)) (not_le.mpr hi)
  · exact Nat.cast_le.mpr (not_lt.mp fun hi => h hi hnone)

theorem StartsWith.le_passLength (h : m.StartsWith s values) :
    (values.length : ℕ∞) ≤ m.passLength s := by
  refine le_passLength_iff.mpr fun i hi => ?_
  rw [h i hi, List.getElem?_eq_getElem hi]
  nofun

theorem StartsWith.passLength_eq (h : m.StartsWith s values)
    (hend : m.answer values.length s = .ok none) : m.passLength s = values.length :=
  le_antisymm ((iInf_le _ values.length).trans (iInf_le _ hend)) h.le_passLength

theorem StartsWith.lt_passLength (h : m.StartsWith s values)
    (hnext : m.answer values.length s ≠ .ok none) : (values.length : ℕ∞) < m.passLength s := by
  refine (ENat.add_one_le_iff (ENat.natCast_ne_top _)).mp ?_
  refine (le_passLength_iff (n := values.length + 1)).mpr fun i hi => ?_
  rcases (Nat.lt_succ_iff_lt_or_eq.mp hi) with hlt | rfl
  · exact le_passLength_iff.mp h.le_passLength i hlt
  · exact hnext

/-! ## Reading -/

/-- What reading comes to if no call fails: all that was asked for, or all that there is. -/
inductive Drained (m : Machine σ α) (limit : ℕ) (s : σ) : List α → σ → Prop where
  | full (values : List α) (size : values.length = limit) (first : m.StartsWith s values) :
    Drained m limit s values (m.after limit s)
  | ended (values : List α) (size : values.length < limit) (first : m.StartsWith s values)
    (last : m.answer values.length s = .ok none) :
    Drained m limit s values (m.after (values.length + 1) s)

theorem StartsWith.cons {v : α} (hgenerate : m.generate s = (.ok (some v), s'))
    (h : m.StartsWith s' values) : m.StartsWith s (v :: values) := by
  intro i hi
  cases i with
  | zero => exact congrArg Prod.fst hgenerate
  | succ i =>
    rw [answer_succ, hgenerate, List.getElem?_cons_succ]
    exact h i (Nat.lt_of_succ_lt_succ hi)

theorem Drained.cons {v : α} {s'' : σ} (hgenerate : m.generate s = (.ok (some v), s'))
    (h : m.Drained limit s' values s'') : m.Drained (limit + 1) s (v :: values) s'' := by
  have hafter (n : ℕ) : m.after n s' = m.after (n + 1) s := by rw [after_succ, hgenerate]
  cases h with
  | full size first =>
    rw [hafter]
    exact .full _ (congrArg (· + 1) size) (first.cons hgenerate)
  | ended size first last =>
    rw [hafter]
    refine .ended _ (Nat.succ_lt_succ size) (first.cons hgenerate) ?_
    rw [List.length_cons, answer_succ, hgenerate]
    exact last

theorem drainInto_drained {read all : Array α} (h : m.drainInto read limit s = (.ok all, s')) :
    ∃ values, all = read ++ values.toArray ∧ m.Drained limit s values s' := by
  -- the induction is on the number of values that may still be read
  induction limit generalizing read s with
  | zero =>
    obtain ⟨hall, rfl⟩ := Prod.mk.inj h
    exact ⟨[], by simpa using (Except.ok.inj hall).symm, .full [] rfl nofun⟩
  | succ limit ih =>
    rcases hgenerate : m.generate s with ⟨fault | _ | v, next⟩
    all_goals simp only [Machine.drainInto, hgenerate] at h
    · cases h
    · obtain ⟨hall, rfl⟩ := Prod.mk.inj h
      have hanswer : m.answer 0 s = .ok none := congrArg Prod.fst hgenerate
      have hnext : m.after 1 s = next := congrArg Prod.snd hgenerate
      refine ⟨[], by simpa using (Except.ok.inj hall).symm, ?_⟩
      rw [← hnext]
      exact .ended [] (Nat.succ_pos limit) nofun hanswer
    · obtain ⟨values, rfl, hdrained⟩ := ih h
      exact ⟨v :: values, by simp, hdrained.cons hgenerate⟩

/-- **A list that was read in advance** from a source at the beginning of a pass. -/
structure Cached (m : Machine σ α) (limit : ℕ) (begun : σ) (values : Array α) (truncated : Bool)
    (source : σ) : Prop where
  /-- There are as many values as the pass has, but no more than the limit. -/
  size : (values.size : ℕ∞) = min (limit : ℕ∞) (m.passLength begun)
  first : m.StartsWith begun values.toList
  truncated : truncated = true ↔ (limit : ℕ∞) < m.passLength begun
  /-- The source has been asked once more than it has given values to the list. -/
  source : source = m.after (values.size + 1) begun
  pulled : (m.stream (values.size + 1) begun).length ≤ limit + 1

theorem length_stream_le (n : ℕ) (s : σ) : (m.stream n s).length ≤ n :=
  (List.length_filterMap_le _ _).trans_eq List.length_range

/-- **Reading in advance finds the beginning of the pass.** -/
theorem readAhead_cached {read : Array α} {more : Bool}
    (h : m.readAhead limit s = (.ok (read, more), s')) : m.Cached limit s read more s' := by
  unfold Machine.readAhead at h
  rcases hdrain : m.drainInto #[] limit s with ⟨fault | all, next⟩
  all_goals simp only [hdrain] at h
  · cases h
  obtain ⟨values, rfl, hdrained⟩ := drainInto_drained hdrain
  rw [Array.empty_append] at h
  cases hdrained with
  | full size first =>
    -- the list is full, and one more call tells whether there is another value
    have hasked : m.answer limit s = (m.generate (m.after limit s)).1 := rfl
    have hnext : m.after (limit + 1) s = (m.generate (m.after limit s)).2 := rfl
    simp only [List.size_toArray, size, if_true] at h
    rcases hgenerate : m.generate (m.after limit s) with ⟨fault | value, last⟩
    all_goals simp only [hgenerate] at h hasked hnext
    · cases h
    obtain ⟨hread, rfl⟩ := Prod.mk.inj h
    obtain ⟨rfl, rfl⟩ := Prod.mk.inj (Except.ok.inj hread)
    rw [← size] at hasked hnext
    have hle := first.le_passLength
    rw [size] at hle
    refine ⟨by rw [List.size_toArray, size, min_eq_left hle], first, ?_,
      by rw [List.size_toArray, hnext], (length_stream_le _ _).trans ?_⟩
    · rw [← size]
      cases value with
      | none => simp [first.passLength_eq hasked]
      | some v => simpa using first.lt_passLength (by simp [hasked])
    · rw [List.size_toArray, size]
  | ended size first last =>
    -- the pass has ended before the list was full
    have hlength := first.passLength_eq last
    have hlt : (values.length : ℕ∞) < limit := Nat.cast_lt.mpr size
    simp only [List.size_toArray, size.ne, if_false] at h
    obtain ⟨hread, rfl⟩ := Prod.mk.inj h
    obtain ⟨rfl, rfl⟩ := Prod.mk.inj (Except.ok.inj hread)
    refine ⟨by rw [List.size_toArray, hlength, min_eq_right hlt.le], first, ?_, rfl,
      (length_stream_le _ _).trans ?_⟩
    · rw [hlength]
      simpa using hlt.le
    · rw [List.size_toArray]
      omega

end Machine

/-! ## Generators that keep a list -/

/-- What a generator keeps that has read its source in advance. -/
structure Stored (σ α : Type) where
  wrapped : Wrapped σ
  /-- The context of the initialization. -/
  context : Option Context
  values : Array α
  /-- Whether the source had more values than the cache may hold. -/
  truncated : Bool

namespace Stored

variable (m : Machine σ α)

/-- A pass that has begun, with the beginning of a pass of the source in the list.  `begun` is the
state of the source at the beginning of that pass. -/
structure Begins (context : Context) (begun : σ) (stored : Stored σ α) : Prop where
  phase : stored.wrapped.phase = .running
  known : stored.context = some context
  cached : m.Cached context.settings.cacheSize begun stored.values stored.truncated
    stored.wrapped.source

/-- What reading can come to: it fails, or a pass has begun. -/
structure Reads (context : Context) (begun : σ) (answer : Except Fault Unit)
    (stored : Stored σ α) : Prop where
  phase : stored.wrapped.phase = .running
  known : stored.context = some context
  begins : answer = .ok () → stored.Begins m context begun

/-- A running generator knows the context of its initialization. -/
def Known (stored : Stored σ α) : Prop :=
  stored.wrapped.phase = .running → ∃ context, stored.context = some context

end Stored

namespace Machine

/-- **A generator that keeps a list** of what it reads. -/
structure Stores (M : Machine τ β) (m : Machine σ α) (L : Loader σ τ) (stored : τ → Stored σ α) :
    Prop extends M.Loads m L where
  wrapped : ∀ t, (stored t).wrapped = L.wrapped t
  context : ∀ t, (stored t).context = L.context t
  reads : ∀ context t streams, (stored t).wrapped.phase = .running →
    (stored t).context = some context →
      (stored (L.load context t streams).2.1).Reads m context (stored t).wrapped.source
        (L.load context t streams).1
  generate : ∀ t, (stored (M.generate t).2).wrapped = (stored t).wrapped ∧
    (stored (M.generate t).2).context = (stored t).context
  close : ∀ t, (stored (M.close t)).wrapped.phase = .closed ∧
    (stored (M.close t)).context = (stored t).context

/-- **Every pass begins with a list that was read in advance.**  Whatever the calls were, a call of
`init` or `reset` that succeeds has filled the list from the pass of the source that it has begun;
how much, the context of the initialization says, which later calls leave as it is. -/
def Caches (M : Machine τ β) (m : Machine σ α) (stored : τ → Stored σ α) (start : τ) : Prop :=
  ∀ streams calls,
    let r := M.run calls (.start start streams)
    (∀ context, (M.init context r.state r.streams).1 = .ok () →
      (stored (M.init context r.state r.streams).2.1).Begins m context
        (m.init context (stored r.state).wrapped.source r.streams).2.1) ∧
    ((M.reset r.state r.streams).1 = .ok () →
      (stored r.state).wrapped.phase = .running ∧ (∃ context,
          (stored r.state).context = some context ∧
          (stored (M.reset r.state r.streams).2.1).Begins m context
            (m.reset (stored r.state).wrapped.source r.streams).2.1) ∨
        (stored r.state).wrapped.phase = .created ∧
          (stored (M.reset r.state r.streams).2.1).Begins m r.streams.defaultContext.1
            (m.init r.streams.defaultContext.1 (stored r.state).wrapped.source
              r.streams.defaultContext.2).2.1) ∧
    ∀ c, (stored r.state).wrapped.phase ≠ .created →
      (stored (M.call r c).state).context = (stored r.state).context

namespace Stores

variable {M : Machine τ β} {m : Machine σ α} {L : Loader σ τ} {stored : τ → Stored σ α} {t : τ}
  {context : Context} {streams : Streams} {fault : Fault}

/-- A source that has begun a pass is read into the list. -/
theorem place_reads (hM : M.Stores m L stored) (t : τ) (source : σ) (context : Context)
    (streams : Streams) :
    let result := L.load context (L.place t ⟨source, .running⟩ (some context)) streams
    (stored result.2.1).Reads m context source result.1 := by
  have hreads := hM.reads context (L.place t ⟨source, .running⟩ (some context)) streams
  rw [hM.wrapped, hM.context, L.wrapped_place, L.context_place] at hreads
  exact hreads rfl rfl

theorem init_reads (hM : M.Stores m L stored) (hphase : (stored t).wrapped.phase = .created)
    (h : (m.init context (stored t).wrapped.source streams).1 = .ok ()) :
    (stored (M.init context t streams).2.1).Reads m context
      (m.init context (stored t).wrapped.source streams).2.1 (M.init context t streams).1 := by
  rw [hM.wrapped] at hphase h ⊢
  rw [hM.init_loads hphase h]
  exact hM.place_reads t _ context _

theorem init_stays_new (hM : M.Stores m L stored) (hphase : (stored t).wrapped.phase = .created)
    (h : (m.init context (stored t).wrapped.source streams).1 = .error fault) :
    (M.init context t streams).1 = .error fault ∧
      (stored (M.init context t streams).2.1).wrapped.phase = .created := by
  rw [hM.wrapped] at hphase h ⊢
  rw [hM.init_failed hphase h, L.wrapped_place]
  exact ⟨rfl, rfl⟩

theorem init_begins (hM : M.Stores m L stored) (h : (M.init context t streams).1 = .ok ()) :
    (stored (M.init context t streams).2.1).Begins m context
      (m.init context (stored t).wrapped.source streams).2.1 := by
  by_cases hphase : (stored t).wrapped.phase = .created
  · rcases hsource : (m.init context (stored t).wrapped.source streams).1 with fault | _
    · rw [(hM.init_stays_new hphase hsource).1] at h
      cases h
    · exact (hM.init_reads hphase hsource).begins h
  · rw [hM.wrapped] at hphase
    obtain ⟨fault, hfault, -⟩ := hM.init_refused hphase context streams
    rw [hfault] at h
    cases h

theorem init_known (hM : M.Stores m L stored) (ht : (stored t).Known) (context : Context)
    (streams : Streams) : (stored (M.init context t streams).2.1).Known := by
  by_cases hphase : (stored t).wrapped.phase = .created
  · rcases hsource : (m.init context (stored t).wrapped.source streams).1 with fault | _
    · intro hrunning
      rw [(hM.init_stays_new hphase hsource).2] at hrunning
      cases hrunning
    · exact fun _ => ⟨context, (hM.init_reads hphase hsource).known⟩
  · rw [hM.wrapped] at hphase
    rw [hM.init_state hphase]
    exact ht

/-- A running generator that is reset goes on running, in its context. -/
theorem reset_running (hM : M.Stores m L stored) (streams : Streams)
    (hphase : (stored t).wrapped.phase = .running) (hcontext : (stored t).context = some context) :
    (stored (M.reset t streams).2.1).Reads m context
      (m.reset (stored t).wrapped.source streams).2.1 (M.reset t streams).1 := by
  rw [hM.wrapped] at hphase ⊢
  rw [hM.context] at hcontext
  rcases hsource : (m.reset (L.wrapped t).source streams).1 with fault | _
  · rw [hM.reset_failed hphase hsource]
    exact ⟨by rw [hM.wrapped, L.wrapped_place], by rw [hM.context, L.context_place, hcontext], nofun⟩
  · rw [hM.reset_loads hphase hcontext hsource]
    exact hM.place_reads t _ context _

/-- **A running generator knows its context**, whatever is called. -/
theorem keeps_known (hM : M.Stores m L stored) : M.Keeps fun t => (stored t).Known where
  init := fun context _ streams ht => hM.init_known ht context streams
  generate := by
    intro t ht
    rw [Stored.Known, (hM.generate t).1, (hM.generate t).2]
    exact ht
  reset := by
    intro t streams ht
    rcases hphase : (stored t).wrapped.phase with _ | _ | _
    · rw [hM.wrapped] at hphase
      rw [hM.reset_created hphase]
      exact hM.init_known ht _ _
    · obtain ⟨context, hcontext⟩ := ht hphase
      exact fun _ => ⟨context, (hM.reset_running streams hphase hcontext).known⟩
    · rw [hM.wrapped] at hphase
      rw [hM.reset_refused hphase]
      exact ht
  close := by
    intro t _ hrunning
    rw [(hM.close t).1] at hrunning
    cases hrunning

/-- **The context of the initialization stays.** -/
theorem call_context (hM : M.Stores m L stored) {r : Run τ β} (hr : (stored r.state).Known)
    (hphase : (stored r.state).wrapped.phase ≠ .created) (c : Call) :
    (stored (M.call r c).state).context = (stored r.state).context := by
  cases c with
  | init context =>
    rw [hM.wrapped] at hphase
    exact congrArg (fun t => (stored t).context) (hM.init_state hphase context r.streams)
  | generate =>
    rw [(call_generate r).1]
    exact (hM.generate r.state).2
  | reset =>
    show (stored (M.reset r.state r.streams).2.1).context = _
    rcases hrunning : (stored r.state).wrapped.phase with _ | _ | _
    · exact absurd hrunning hphase
    · obtain ⟨context, hcontext⟩ := hr hrunning
      rw [hcontext]
      exact (hM.reset_running r.streams hrunning hcontext).known
    · rw [hM.wrapped] at hrunning
      rw [hM.reset_refused hrunning]
  | close => exact (hM.close r.state).2

theorem caches (hM : M.Stores m L stored) {start : τ} (hstart : (stored start).Known) :
    M.Caches m stored start := by
  intro streams calls r
  have hknown : (stored r.state).Known :=
    hM.keeps_known.run (r := .start start streams) hstart calls
  refine ⟨fun _ => hM.init_begins, fun hok => ?_, fun c hphase => hM.call_context hknown hphase c⟩
  rcases hphase : (stored r.state).wrapped.phase with _ | _ | _
  · have hcreated := hphase
    rw [hM.wrapped] at hcreated
    rw [hM.reset_created hcreated] at hok ⊢
    exact Or.inr ⟨rfl, hM.init_begins hok⟩
  · obtain ⟨context, hcontext⟩ := hknown hphase
    exact Or.inl ⟨rfl, context, hcontext,
      (hM.reset_running r.streams hphase hcontext).begins hok⟩
  · rw [hM.wrapped] at hphase
    rw [hM.reset_refused hphase] at hok
    cases hok

end Stores
end Machine

namespace Sample

variable {m : Machine σ α} {d : Distribution ν} {unique : Bool}

/-- What a sampler keeps. -/
def stored (s : Sample σ ν α) : Stored σ α :=
  ⟨s.wrapped, s.context, s.values, s.truncated⟩

theorem materialize_reads (m : Machine σ α) (d : Distribution ν) (unique : Bool)
    {context : Context} {s : Sample σ ν α} (hphase : s.wrapped.phase = .running)
    (hcontext : s.context = some context) (streams : Streams) :
    (materialize m d unique context s streams).2.1.stored.Reads m context s.wrapped.source
      (materialize m d unique context s streams).1 := by
  unfold materialize
  split
  · exact ⟨hphase, hcontext, by rintro ⟨⟩⟩
  · split
    · exact ⟨hphase, hcontext, by rintro ⟨⟩⟩
    · rename_i hread _ _ _ _
      exact ⟨hphase, hcontext, fun _ => ⟨hphase, hcontext, Machine.readAhead_cached hread⟩⟩

/-- **Samplers keep a list.** -/
theorem stores (m : Machine σ α) (d : Distribution ν) (unique : Bool) :
    (machine m d unique).Stores m (loader m d unique) stored where
  toLoads := loads m d unique
  wrapped _ := rfl
  context _ := rfl
  reads _ _ streams hphase hcontext := materialize_reads m d unique hphase hcontext streams
  generate := generate_keeps unique
  close _ := ⟨rfl, rfl⟩

end Sample

namespace Individual

variable {m : Machine σ α} {weight : α → Float}

/-- What a generator of weighted items keeps.  Without values there is no table of shares, and then
no list either. -/
def stored (g : Individual σ α) : Stored σ α :=
  ⟨g.wrapped, g.context, (g.sample.map WeightedItems.items).getD #[], g.truncated⟩

theorem weigh_items {items : Array α} {sample : Option (WeightedItems α)}
    (h : weigh weight items = .ok sample) :
    (sample.map WeightedItems.items).getD #[] = items := by
  unfold weigh at h
  split at h
  · rename_i hempty
    obtain rfl := Except.ok.inj h
    exact (Array.isEmpty_iff.mp hempty).symm
  · split at h
    · cases h
    · cases h
    · obtain rfl := Except.ok.inj h
      rfl

theorem materialize_reads (m : Machine σ α) (weight : α → Float) {context : Context}
    {g : Individual σ α} (hphase : g.wrapped.phase = .running)
    (hcontext : g.context = some context) (streams : Streams) :
    (materialize m weight context g streams).2.1.stored.Reads m context g.wrapped.source
      (materialize m weight context g streams).1 := by
  unfold materialize
  split
  · exact ⟨hphase, hcontext, by rintro ⟨⟩⟩
  · split
    · exact ⟨hphase, hcontext, by rintro ⟨⟩⟩
    · rename_i hread _ _ hweigh
      have hcached := Machine.readAhead_cached hread
      rw [← weigh_items hweigh] at hcached
      exact ⟨hphase, hcontext, fun _ => ⟨hphase, hcontext, hcached⟩⟩

theorem generate_keeps (g : Individual σ α) :
    ((machine m weight).generate g).2.wrapped = g.wrapped ∧
      ((machine m weight).generate g).2.context = g.context := by
  obtain ⟨⟨source, phase⟩, known, sample, rng, truncated⟩ := g
  cases phase with
  | created | closed => exact ⟨rfl, rfl⟩
  | running =>
    cases sample with
    | none => exact ⟨rfl, rfl⟩
    | some sample =>
      cases rng with
      | none | some _ => exact ⟨rfl, rfl⟩

/-- **Generators of weighted items keep a list.** -/
theorem stores (m : Machine σ α) (weight : α → Float) :
    (machine m weight).Stores m (loader m weight) stored where
  toLoads := loads m weight
  wrapped _ := rfl
  context _ := rfl
  reads _ _ streams hphase hcontext := materialize_reads m weight hphase hcontext streams
  generate := generate_keeps
  close _ := ⟨rfl, rfl⟩

end Individual

/-- **A source that is read in advance is read as far as the cache goes**, by samplers and by
generators of weighted items alike, at every initialization and at every reset, whatever the source
and however long its passes are. -/
theorem source_cached (m : Machine σ α) (d : Distribution ν) (unique : Bool) (weight : α → Float)
    (source : σ) :
    (Sample.machine m d unique).Caches m Sample.stored (.new source) ∧
      (Individual.machine m weight).Caches m Individual.stored (.new source) :=
  ⟨(Sample.stores m d unique).caches nofun, (Individual.stores m weight).caches nofun⟩

/-- Three letters, of which a cache holds two. -/
theorem source_cached_letters :
    let letters := Listed.new #['a', 'b', 'c']
    let sampler := Sample.machine Listed.machine Strategy.wedge.distribution false
    let streams := Streams.start fun _ => .ofSeed 0
    let begun := (sampler.init ⟨{ cacheSize := 2 }, 0⟩ (.new letters) streams).2.1
    begun.values = #['a', 'b'] ∧ begun.truncated = true ∧
      (2 : ℕ∞) < Listed.machine.passLength (Leaf.mk letters.cursor .running) := by
  intro letters sampler streams begun
  have hcached := ((source_cached Listed.machine Strategy.wedge.distribution false (fun _ => 1)
    letters).1 streams []).1 ⟨{ cacheSize := 2 }, 0⟩ rfl
  exact ⟨rfl, rfl, hcached.cached.truncated.mp rfl⟩

end SynthData
