import SynthData.Generator.Filtered
import SynthData.Proofs.Generator.Wrapped

/-!
# Values that were not there before

A value is pending as long as it has not been passed on and the generator is not
closed.  Closing forgets the values that were passed on, which does no harm
because a closed generator passes nothing on.

Nothing is assumed of the source (`machine_spends`).
-/
namespace SynthData.Unique

variable {σ α : Type} [BEq α] [Hashable α] {m : Machine σ α}

/-- A value that may still be passed on. -/
def Pending (u : Unique σ α) (a : α) : Prop := u.wrapped.phase ≠ .closed ∧ a ∉ u.seen

/-- What a search can come to: it finds nothing and remembers nothing, or finds a
value that was not there before and remembers it. -/
def Sought (seen : Std.HashSet α) (phase : Phase)
    (result : Except Fault (Option α) × Std.HashSet α × Wrapped σ) : Prop :=
  result.2.2.phase = phase ∧
    (((∀ v, result.1 ≠ .ok (some v)) ∧ result.2.1 = seen) ∨
      ∃ v, result.1 = .ok (some v) ∧ phase = .running ∧ v ∉ seen ∧ result.2.1 = seen.insert v)

/-- A search is what its first value makes of it, or what comes after a repeated
value. -/
theorem seek_step {limit chances : Nat} {seen : Std.HashSet α} {w : Wrapped σ}
    (hrepeated : ∀ w' : Wrapped σ, w'.phase = w.phase → Sought seen w.phase
      (match chances with
        | 0 => (.error (.repeatedValues (max 1 limit) seen.size), seen, w')
        | chances + 1 => seek m limit chances seen w')) :
    Sought seen w.phase (seek m limit chances seen w) := by
  have hphase := w.generate_phase owner m
  unfold seek
  rcases hgenerate : w.generate owner m with ⟨fault | _ | v, w'⟩
  all_goals rw [hgenerate] at hphase
  · exact ⟨hphase, Or.inl ⟨nofun, rfl⟩⟩
  · exact ⟨hphase, Or.inl ⟨nofun, rfl⟩⟩
  · by_cases hseen : seen.contains v
    · simp only [if_pos hseen]
      exact hrepeated w' hphase
    · simp only [if_neg hseen]
      have running := Wrapped.running_of_generate (by rw [hgenerate])
      exact ⟨hphase, Or.inr ⟨v, rfl, running, hseen, rfl⟩⟩

theorem seek_sought (m : Machine σ α) (limit chances : Nat) (seen : Std.HashSet α)
    (w : Wrapped σ) : Sought seen w.phase (seek m limit chances seen w) := by
  induction chances generalizing w with
  | zero => exact seek_step fun w' hphase => ⟨hphase, Or.inl ⟨nofun, rfl⟩⟩
  | succ chances ih =>
    refine seek_step fun w' hphase => ?_
    rw [← hphase]
    exact ih w'

/-- A call of `generate` is a search. -/
theorem generate_eq (explicit : Bool) (u : Unique σ α) :
    (machine m explicit).generate u =
      ((seek m u.limit (u.limit - 1) u.seen u.wrapped).1,
        ⟨(seek m u.limit (u.limit - 1) u.seen u.wrapped).2.2,
          (seek m u.limit (u.limit - 1) u.seen u.wrapped).2.1, u.limit⟩) :=
  rfl

/-- **The filter passes no value on twice**, whatever its source does. -/
theorem machine_spends [LawfulBEq α] (m : Machine σ α) (explicit : Bool) :
    (machine m explicit).Spends (fun _ => True) Pending where
  init := fun _ _ _ _ => trivial
  generate := fun _ _ => trivial
  reset := fun _ _ _ => trivial
  close := fun _ _ => trivial
  spent := by
    intro u v _ h
    rw [generate_eq] at h ⊢
    obtain ⟨-, ⟨hnone, -⟩ | ⟨v', hanswer, running, hfresh, hseen⟩⟩ :=
      seek_sought m u.limit (u.limit - 1) u.seen u.wrapped
    · exact absurd h (hnone v)
    · obtain rfl := Option.some.inj (Except.ok.inj (hanswer.symm.trans h))
      refine ⟨⟨by rw [running]; nofun, hfresh⟩, fun hpending => hpending.2 ?_⟩
      rw [hseen]
      exact Std.HashSet.mem_insert_self
  generate_pending := by
    intro u a _ ha
    rw [generate_eq] at ha
    obtain ⟨hphase, hcases⟩ := seek_sought m u.limit (u.limit - 1) u.seen u.wrapped
    obtain ⟨hopen, hmem⟩ := ha
    refine ⟨fun hclosed => hopen (hphase.trans hclosed), fun hseen => hmem ?_⟩
    show a ∈ (seek m u.limit (u.limit - 1) u.seen u.wrapped).2.1
    obtain ⟨-, heq⟩ | ⟨v, -, -, -, heq⟩ := hcases
    · rw [heq]
      exact hseen
    · rw [heq]
      exact Std.HashSet.mem_insert.mpr (Or.inr hseen)
  close_pending := fun _ _ _ ha => absurd rfl ha.1

end SynthData.Unique
