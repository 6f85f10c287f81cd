import SynthData.Walk.Basic

/-!
# Walks that draw nothing

Most walks go on in the same way whatever random stream they are handed (`Drawless.next_eq`).  A
walk of this kind forgets where it is when it is rewound: only its parameters matter, and no step
changes these (`Drawless.rewind_next`).

`Goes` says which indices a walk finds from step to step.
-/
namespace SynthData.Walk

variable {spec : Spec}

/-! ## Steps and parameters -/

theorem Shuffle.rewind_next (w : Shuffle) : w.next.2.rewind spec = w.rewind spec := by
  unfold next
  split
  · rfl
  · split
    · rfl
    · rfl

theorem Step.rewind_next (w : Step) : w.next.2.rewind spec = w.rewind spec := by
  unfold next
  split
  · rfl
  · rfl

theorem Cycle.rewind_next (w : Cycle) : w.next.2.rewind spec = w.rewind spec := by
  unfold next
  split
  · rfl
  · rfl

theorem First.rewind_next (w : First) : w.next.2.rewind spec = w.rewind spec := by
  unfold next
  split
  · rfl
  · rfl

/-! ## Walks of all kinds -/

/-- The walk draws nothing from the random stream. -/
def Drawless : Walk → Prop
  | shuffle _ | step _ | cycle _ | wedge _ | bitReverse _ | recurrence _ | first _ => True
  | random _ | cumulated _ | drift _ => False

namespace Drawless

variable {w : Walk}

theorem rewind (hw : w.Drawless) : (w.rewind spec).Drawless := by
  cases w <;> exact hw

/-- A walk that has been rewound is rewound already. -/
theorem rewind_rewind (hw : w.Drawless) : (w.rewind spec).rewind spec = w.rewind spec := by
  cases w with
  | random _ | cumulated _ | drift _ => exact hw.elim
  | _ => rfl

theorem next (hw : w.Drawless) (rng : Rng) : (w.next rng).2.1.Drawless := by
  cases w with
  | random _ | cumulated _ | drift _ => exact hw.elim
  | _ => trivial

/-- **A walk that draws nothing goes on in the same way with any random stream.** -/
theorem next_eq (hw : w.Drawless) (rng rng' : Rng) :
    (w.next rng).1 = (w.next rng').1 ∧ (w.next rng).2.1 = (w.next rng').2.1 := by
  cases w with
  | random _ | cumulated _ | drift _ => exact hw.elim
  | _ => exact ⟨rfl, rfl⟩

/-- **Wherever the walk is, it is rewound to the same beginning.** -/
theorem rewind_next (hw : w.Drawless) (rng : Rng) :
    (w.next rng).2.1.rewind spec = w.rewind spec := by
  cases w with
  | random _ | cumulated _ | drift _ => exact hw.elim
  | shuffle w => exact congrArg shuffle w.rewind_next
  | step w => exact congrArg step w.rewind_next
  | cycle w => exact congrArg cycle w.rewind_next
  | first w => exact congrArg first w.rewind_next
  | wedge _ | bitReverse _ | recurrence _ => rfl

end Drawless

/-! ## One step after the other -/

variable {w : Walk} {index : Nat → Option Nat}

/-- The walk and the random stream after some steps. -/
def afterSteps (w : Walk) (rng : Rng) : (steps : Nat) → Walk × Rng
  | 0 => (w, rng)
  | k + 1 => ((w.afterSteps rng k).1.next (w.afterSteps rng k).2).2

/-- Step `k` finds the index `index k`, if there is one, whatever random stream the walk draws
from. -/
def Goes (w : Walk) (index : Nat → Option Nat) : Prop :=
  ∀ rng k, ((w.afterSteps rng k).1.next (w.afterSteps rng k).2).1 = index k

/-- If a step finds the first index and leaves a walk of the same sort for the others, the walk
finds all of them. -/
theorem Goes.of_step (sort : Walk → (Nat → Option Nat) → Prop)
    (step : ∀ w index rng, sort w index →
      (w.next rng).1 = index 0 ∧ sort (w.next rng).2.1 fun k => index (k + 1))
    (h : sort w index) : w.Goes index := by
  intro rng k
  have hleft : sort (w.afterSteps rng k).1 fun j => index (k + j) := by
    induction k with
    | zero =>
      simp only [Nat.zero_add]
      exact h
    | succ k ih =>
      simp only [Nat.add_assoc, Nat.add_comm 1]
      exact (step _ _ _ ih).2
  exact (step _ _ _ hleft).1

/-- A walk that has a list ahead of it, of which each step takes the head, finds the indices of
that list. -/
theorem Goes.of_ahead (ahead : Walk → List Nat → Prop)
    (step : ∀ w indices rng, ahead w indices →
      (w.next rng).1 = indices.head? ∧ ahead (w.next rng).2.1 indices.tail)
    {indices : List Nat} (h : ahead w indices) : w.Goes fun k => indices[k]? := by
  refine .of_step (fun w index => ∃ indices, ahead w indices ∧ index = fun k => indices[k]?) ?_
    ⟨indices, h, rfl⟩
  rintro w _ rng ⟨indices, hahead, rfl⟩
  obtain ⟨hhead, htail⟩ := step w indices rng hahead
  exact ⟨by rw [hhead, List.head?_eq_getElem?], indices.tail, htail,
    by simp only [List.getElem?_tail]⟩

theorem Drawless.afterSteps (hw : w.Drawless) (rng : Rng) (k : Nat) :
    (w.afterSteps rng k).1.Drawless := by
  induction k with
  | zero => exact hw
  | succ k ih => exact ih.next _

theorem Drawless.rewind_afterSteps (hw : w.Drawless) (rng : Rng) (k : Nat) :
    (w.afterSteps rng k).1.rewind spec = w.rewind spec := by
  induction k with
  | zero => rfl
  | succ k ih => exact ((hw.afterSteps rng k).rewind_next _).trans ih

end SynthData.Walk
