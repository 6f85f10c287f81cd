import SynthData.Proofs.Generator.Expand
import SynthData.Proofs.Generator.Kinds
import SynthData.Proofs.Generator.Unique

/-!
# Generators that go on running

A running generator goes on running when it generates and when it is reset, whether
the call succeeds or not (`Machine.StaysRunning`).  There is one lemma for each kind of
generators, and `Kind.staysRunning` for all of them.
-/
namespace SynthData

variable {σ τ α β κ ω ν : Type}

/-- A generator that runs goes on running until it is closed. -/
structure Machine.StaysRunning (m : Machine σ α) : Prop where
  generate : ∀ s, m.phase s = .running → m.phase (m.generate s).2 = .running
  reset : ∀ s streams, m.phase s = .running → m.phase (m.reset s streams).2.1 = .running

/-! ## Generators without a source -/

theorem Leaf.staysRunning (owner : String) (start : κ → κ) (next : κ → Option α × κ)
    (threadSafe : κ → Bool) : (Leaf.machine owner start next threadSafe).StaysRunning where
  generate := by
    rintro ⟨cursor, _⟩ rfl
    rfl
  reset := by
    rintro ⟨cursor, _⟩ streams rfl
    rfl

theorem Grid.staysRunning (owner : String) (walk : IndexWalk ω) :
    (Grid.machine owner walk).StaysRunning where
  generate := by
    rintro ⟨spec, walk', rng, _⟩ rfl
    cases rng <;> rfl
  reset := by
    rintro ⟨spec, walk', rng, _⟩ streams rfl
    simp only [machine]
    split <;> rfl

theorem Weighted.staysRunning : Weighted.machine.StaysRunning where
  generate := by
    rintro ⟨spec, weight, table, count, rng, _⟩ rfl
    cases rng <;> cases table <;> rfl
  reset := by
    rintro ⟨spec, weight, table, count, rng, _⟩ streams rfl
    rfl

theorem Inverse.staysRunning : Inverse.machine.StaysRunning where
  generate := by
    rintro ⟨spec, function, least, mass, rng, _⟩ rfl
    cases rng <;> rfl
  reset := by
    rintro ⟨spec, function, least, mass, rng, _⟩ streams rfl
    rfl

/-! ## Generators over a source -/

theorem Mapped.staysRunning (owner : String) (m : Machine σ α) (f : α → β) :
    (Mapped.machine owner m f).StaysRunning where
  generate := by
    intro w h
    show ((machine owner m f).generate w).2.phase = .running
    rw [generate_snd, Wrapped.generate_phase]
    exact h
  reset := by
    intro w streams h
    have hphase := Wrapped.phase_reset owner m h streams
    simp only [machine]
    split <;> simp_all

namespace Expand

theorem handOut_phase (m : Machine σ α) (unique : Bool) (index : Nat) (keep : Bool)
    (e : Expand σ α) : (handOut m unique index keep e).2.wrapped.phase = e.wrapped.phase := by
  obtain ⟨w, pool, capacity, depleted, rng⟩ := e
  unfold handOut
  dsimp only
  split
  · rfl
  · split
    · rfl
    · have hcases := pull_cases m depleted w
      rcases hpull : pull m depleted w with ⟨_ | _ | fresh, w', depleted'⟩
      all_goals
        simp only [hpull] at hcases
        rcases hcases with ⟨-, rfl⟩ | ⟨-, rfl⟩
      all_goals rfl

theorem emit_phase (m : Machine σ α) (unique : Bool) (quota : Float) (e : Expand σ α) :
    (emit m unique quota e).2.wrapped.phase = e.wrapped.phase := by
  have hfilled := (refill_reads (m := m) (P := fun _ _ => True) ⟨fun _ _ _ _ _ => trivial,
    fun _ _ _ => trivial⟩ (e := e) trivial).2
  unfold emit
  rcases hrefill : refill m e with ⟨fault | _, w, pool, capacity, depleted, rng⟩
  all_goals rw [hrefill] at hfilled
  · exact hfilled
  · dsimp only
    split
    · exact hfilled
    · cases rng with
      | none => exact hfilled
      | some rng =>
        dsimp only
        split
        · exact (handOut_phase m true _ false _).trans hfilled
        · exact (handOut_phase m false _ _ _).trans hfilled

theorem staysRunning (m : Machine σ α) (unique : Bool) (quota : Float) :
    (machine m unique quota).StaysRunning where
  generate := by
    intro e h
    have hrunning : e.wrapped.phase = .running := h
    simp only [machine, hrunning, Phase.requireRunning]
    exact (emit_phase m unique quota e).trans h
  reset := by
    intro e streams h
    have hphase := Wrapped.phase_reset owner m h streams
    simp only [machine]
    split <;> simp_all

end Expand

theorem Unique.staysRunning [BEq α] [Hashable α] (m : Machine σ α) (explicit : Bool) :
    (Unique.machine m explicit).StaysRunning where
  generate := by
    intro u h
    exact (seek_sought m u.limit (u.limit - 1) u.seen u.wrapped).1.trans h
  reset := by
    intro u streams h
    have hphase := Wrapped.phase_reset owner m h streams
    simp only [machine]
    split <;> simp_all

theorem Head.staysRunning (m : Machine σ α) (size : Nat) : (Head.machine m size).StaysRunning where
  generate := by
    rintro ⟨⟨source, _⟩, emitted⟩ rfl
    have hphase := Wrapped.generate_phase owner m ⟨source, .running⟩
    simp only [machine, Phase.requireRunning]
    split
    · rfl
    · rcases hgenerate : Wrapped.generate owner m ⟨source, .running⟩ with ⟨_ | _ | v, w⟩
      all_goals
        rw [hgenerate] at hphase
        exact hphase
  reset := by
    intro h streams hs
    have hphase := Wrapped.phase_reset owner m hs streams
    simp only [machine]
    split <;> simp_all

theorem Shared.staysRunning (m : Machine σ α) : (Shared.machine m).StaysRunning where
  generate := by
    rintro ⟨_, shared⟩ rfl
    rfl
  reset := by
    rintro ⟨_, shared⟩ streams rfl
    rfl

/-- A handle that is given the phase it has does not change. -/
theorem SharedHandles.set_phase {handles : Array Phase} {number : Nat} {phase : Phase}
    (h : handles.getD number .closed = phase) : handles.setIfInBounds number phase = handles := by
  rw [Array.getD_eq_getD_getElem?] at h
  refine Array.ext_getElem? fun i => ?_
  rw [Array.getElem?_setIfInBounds]
  split
  · rename_i heq
    subst heq
    cases hget : handles[number]? with
    | none => simp_all
    | some p =>
      obtain ⟨hlt, -⟩ := Array.getElem?_eq_some_iff.mp hget
      simp_all
  · rfl

theorem SharedHandles.staysRunning (m : Machine σ α) (number : Nat) :
    (SharedHandles.machine m number).StaysRunning where
  generate := fun _ h => h
  reset := by
    rintro ⟨shared, handles⟩ streams h
    have hrunning : handles.getD number .closed = .running := h
    simp only [machine, phase, hrunning, Shared.reset, set_phase hrunning]

/-! ## Generators over several sources -/

theorem Record.staysRunning (fields : Fields σ) : (Record.machine fields).StaysRunning where
  generate := by
    rintro ⟨states, _⟩ rfl
    simp only [machine, Phase.requireRunning]
    split <;> rfl
  reset := by
    rintro ⟨states, _⟩ streams rfl
    rfl

theorem Days.staysRunning (range : DateRange) (d : Distribution ν) (unique : Bool) :
    (Days.machine range d unique).StaysRunning where
  generate := by
    rintro ⟨steps, _⟩ rfl
    rw [machine]
    cases steps with
    | none => rfl
    | some steps =>
      simp only [emit, Phase.requireRunning]
      split <;> rfl
  reset := by
    rintro ⟨steps, _⟩ streams rfl
    cases steps <;> rfl

theorem Instants.staysRunning (range : InstantRange) (d : Distribution ν) (t : Distribution τ)
    (unique : Bool) : (Instants.machine range d t unique).StaysRunning where
  generate := by
    rintro ⟨days, times, _⟩ rfl
    simp only [machine, emit, Phase.requireRunning]
    split
    · rfl
    · rfl
    · split
      · rfl
      · split <;> rfl
  reset := by
    rintro ⟨days, times, _⟩ streams rfl
    simp only [machine]
    split
    · rfl
    · cases times <;> rfl

/-! ## Sources that are read into memory -/

theorem Sample.staysRunning (m : Machine σ α) (d : Distribution ν) (unique : Bool) :
    (Sample.machine m d unique).StaysRunning where
  generate := by
    rintro ⟨⟨source, _⟩, context, values, truncated, chooser⟩ rfl
    simp only [machine, Phase.requireRunning, emit]
    split
    · rfl
    · rfl
    · split <;> rfl
  reset := fun s streams h => (loads m d unique).phase_reset (t := s) h streams

theorem Individual.staysRunning (m : Machine σ α) (weight : α → Float) :
    (Individual.machine m weight).StaysRunning where
  generate := by
    rintro ⟨⟨source, _⟩, context, sample, rng, truncated⟩ rfl
    simp only [machine, Phase.requireRunning, emit]
    split <;> rfl
  reset := fun g streams h => (loads m weight).phase_reset (t := g) h streams

/-! ## All kinds -/

/-- **A running generator goes on running**, of whichever kind it is. -/
theorem Kind.staysRunning (k : Kind σ α) : k.machine.StaysRunning := by
  cases k with
  | leaf owner start next threadSafe => exact Leaf.staysRunning owner start next threadSafe
  | mapped owner source f => exact Mapped.staysRunning owner source f
  | expand source unique quota => exact Expand.staysRunning source unique quota
  | distinct source explicit => exact Unique.staysRunning source explicit
  | head source size => exact Head.staysRunning source size
  | shared source => exact Shared.staysRunning source
  | handle source number => exact SharedHandles.staysRunning source number
  | record fields => exact Record.staysRunning fields
  | grid owner walk => exact Grid.staysRunning owner walk
  | weighted => exact Weighted.staysRunning
  | inverse => exact Inverse.staysRunning
  | days range d unique => exact Days.staysRunning range d unique
  | instants range d t unique => exact Instants.staysRunning range d t unique
  | sample source d unique => exact Sample.staysRunning source d unique
  | individual source weight => exact Individual.staysRunning source weight

end SynthData
