import SynthData.Proofs.Depletion.Sources
import SynthData.Proofs.Strategy.Numbers

/-!
# Numbers that run out for good

A walk that is over has no way back into the grid (`Walk.Spent`), and a generator
that has nothing to draw from does not get it later.  So every number generator of
the built-in strategies settles, in every state (`NumberGen.settled`), and with it
the generators of days and of times that ask one for their steps.
-/
namespace SynthData

/-! ## Walks -/

namespace Walk

/-- A walk that is over. -/
def Spent : Walk → Prop
  | random w => w.unique = true ∧ w.count ≤ w.drawn
  | shuffle w => w.current = none
  | cumulated _ => False
  | drift w => w.current = none
  | step w => w.current < w.low ∨ w.high < w.current
  | cycle w => w.current = none
  | wedge w => w.done = true
  | bitReverse w => w.left = 0
  | recurrence w => w.rest = []
  | first w => w.stop ≤ w.current

theorem BitReverse.left_of_seek {count bits left : Nat} (h : (seek count bits left).1 = none) :
    (seek count bits left).2 = 0 := by
  fun_induction seek count bits left with
  | case1 => rfl
  | case2 => cases h
  | case3 left index hlt ih => exact ih h

theorem Recurrence.rest_of_seek {unique : Bool} {spec : Spec} {last : Option Nat} {rest : List Nat}
    (h : (seek unique spec last rest).1 = none) : (seek unique spec last rest).2.1 = [] := by
  fun_induction seek unique spec last rest with
  | case1 | case2 => rfl
  | case3 term rest _ _ ih => exact ih h
  | case4 => cases h
  | case5 term rest _ _ _ ih => exact ih h

/-- A walk that has no next index is over. -/
theorem spent_of_next {w : Walk} {rng : Rng} (h : (w.next rng).1 = none) :
    (w.next rng).2.1.Spent := by
  cases w with
  | random w =>
    simp only [next, drawnBy, Random.next] at h ⊢
    split at h
    · split at h
      · rename_i hunique hdrawn
        simp only [if_pos hunique, if_pos hdrawn]
        exact ⟨hunique, hdrawn⟩
      · cases h
    · cases h
  | shuffle w =>
    simp only [next, undrawn, Shuffle.next] at h ⊢
    split at h
    · rename_i hcurrent
      simp [Spent, hcurrent]
    · split at h <;> cases h
  | cumulated w => cases h
  | drift w =>
    simp only [next, drawnBy, Drift.next] at h ⊢
    split at h
    · rename_i hcurrent
      simp [Spent, hcurrent]
    · cases h
  | step w =>
    simp only [next, undrawn, Step.next] at h ⊢
    split at h
    · rename_i hout
      simp [Spent, hout]
    · cases h
  | cycle w =>
    simp only [next, undrawn, Cycle.next] at h ⊢
    split at h
    · rename_i hcurrent
      simp [Spent, hcurrent]
    · cases h
  | wedge w =>
    simp only [next, undrawn, Wedge.next] at h ⊢
    split at h
    · rename_i hdone
      simp [Spent, hdone]
    · cases h
  | bitReverse w => exact BitReverse.left_of_seek h
  | recurrence w => exact Recurrence.rest_of_seek h
  | first w =>
    simp only [next, undrawn, First.next] at h ⊢
    split at h
    · rename_i hstop
      simp [Spent, hstop]
    · cases h

theorem Spent.next {w : Walk} (hw : w.Spent) (rng : Rng) :
    (w.next rng).1 = none ∧ (w.next rng).2.1.Spent := by
  cases w with
  | random w => simpa [Walk.next, drawnBy, Random.next, hw.1, hw.2] using hw
  | shuffle w =>
    have hcurrent : w.current = none := hw
    simpa [Walk.next, undrawn, Shuffle.next, hcurrent] using hw
  | cumulated w => exact hw.elim
  | drift w =>
    have hcurrent : w.current = none := hw
    simpa [Walk.next, drawnBy, Drift.next, hcurrent] using hw
  | step w =>
    have hout : w.current < w.low ∨ w.high < w.current := hw
    simpa [Walk.next, undrawn, Step.next, hout] using hw
  | cycle w =>
    have hcurrent : w.current = none := hw
    simpa [Walk.next, undrawn, Cycle.next, hcurrent] using hw
  | wedge w =>
    have hdone : w.done = true := hw
    simpa [Walk.next, undrawn, Wedge.next, hdone] using hw
  | bitReverse w =>
    have hleft : w.left = 0 := hw
    simp [Walk.next, undrawn, BitReverse.next, hleft, BitReverse.seek, Spent]
  | recurrence w =>
    have hrest : w.rest = [] := hw
    simp [Walk.next, undrawn, Recurrence.next, hrest, Recurrence.seek, Spent]
  | first w =>
    have hstop : w.stop ≤ w.current := hw
    simpa [Walk.next, undrawn, First.next, hstop] using hw

end Walk

/-! ## Generators of numbers -/

section

variable {owner : String}

theorem Grid.settles :
    (machine owner Walk.kind).Settles Machine.Alone (fun _ => True)
      (fun g => g.phase ≠ .created ∧ (g.rng = none ∨ g.walk.Spent)) := by
  refine .of_spent ?init ?ends ?stays fun _ hspent => ⟨by rintro ⟨⟩, hspent⟩
  case init =>
    intro context g streams h
    obtain ⟨fault, hfault, -⟩ := g.phase.requireCreated_error owner h
    simp [machine, init, hfault]
  case ends =>
    rintro ⟨spec, walk, rng, phase⟩ h
    cases phase with
    | created | closed => cases h
    | running =>
      cases rng with
      | none => exact ⟨by rintro ⟨⟩, Or.inl rfl⟩
      | some rng =>
        have hnone : (walk.next rng).1.map spec.valueAt = none := Except.ok.inj h
        exact ⟨by rintro ⟨⟩, Or.inr (Walk.spent_of_next (Option.map_eq_none_iff.mp hnone))⟩
  case stays =>
    rintro ⟨spec, walk, rng, phase⟩ hphase hspent
    cases phase with
    | created | closed => exact ⟨by rintro _ ⟨⟩, hphase, hspent⟩
    | running =>
      cases rng with
      | none => exact ⟨by rintro _ ⟨⟩, hphase, hspent⟩
      | some rng =>
        have hspent : walk.Spent := hspent.resolve_left (Option.some_ne_none rng)
        refine ⟨fun n h => ?_, hphase, Or.inr (hspent.next rng).2⟩
        have hsome : (walk.next rng).1.map spec.valueAt = some n := Except.ok.inj h
        simp [(hspent.next rng).1] at hsome

theorem Weighted.settles :
    machine.Settles Machine.Alone (fun _ => True)
      (fun w => w.phase ≠ .created ∧ w.rng = none) := by
  refine .of_spent ?init ?ends ?stays fun _ hspent => ⟨by rintro ⟨⟩, hspent⟩
  case init =>
    intro context w streams h
    obtain ⟨fault, hfault, -⟩ := w.phase.requireCreated_error owner h
    simp [machine, init, hfault]
  case ends =>
    rintro ⟨spec, weight, table, count, rng, phase⟩ h
    cases phase with
    | created | closed => cases h
    | running =>
      cases rng with
      | none => exact ⟨by rintro ⟨⟩, rfl⟩
      | some rng => cases table <;> cases h
  case stays =>
    rintro ⟨spec, weight, table, count, rng, phase⟩ hphase rfl
    cases phase <;> exact ⟨by rintro _ ⟨⟩, hphase, rfl⟩

theorem Inverse.settles :
    machine.Settles Machine.Alone (fun _ => True)
      (fun g => g.phase ≠ .created ∧ g.rng = none) := by
  refine .of_spent ?init ?ends ?stays fun _ hspent => ⟨by rintro ⟨⟩, hspent⟩
  case init =>
    intro context g streams h
    obtain ⟨fault, hfault, -⟩ := g.phase.requireCreated_error owner h
    simp [machine, init, hfault]
  case ends =>
    rintro ⟨spec, function, least, mass, rng, phase⟩ h
    cases phase with
    | created | closed => cases h
    | running =>
      cases rng with
      | none => exact ⟨by rintro ⟨⟩, rfl⟩
      | some rng => cases h
  case stays =>
    rintro ⟨spec, function, least, mass, rng, phase⟩ hphase rfl
    cases phase <;> exact ⟨by rintro _ ⟨⟩, hphase, rfl⟩

/-- **Every number generator of the built-in strategies settles**, in every state. -/
theorem NumberGen.settled (g : NumberGen) : machine.Settled Machine.Alone g := by
  cases g with
  | grid owner g => exact (embeds_grid owner).settled (Grid.settles.settled trivial)
  | expand unique quota e =>
    exact (embeds_expand unique quota).settled
      ((Expand.settles Grid.settles).settled ⟨trivial, fun _ _ => trivial⟩).alone
  | weighted owner w =>
    exact (embeds_weighted owner).settled ((Mapped.settles Weighted.settles).settled trivial).alone
  | inverse g => exact embeds_inverse.settled (Inverse.settles.settled trivial)
  | listed l => exact embeds_listed.settled (Listed.settles.settled trivial)

end

end SynthData
