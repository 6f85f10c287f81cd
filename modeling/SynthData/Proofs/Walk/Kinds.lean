import SynthData.Proofs.Walk.BitReverse
import SynthData.Proofs.Walk.Drawn
import SynthData.Proofs.Walk.Recurrence
import SynthData.Walk.Basic

/-!
# Walks of all kinds

The results on the single walks, put together for `Walk`.  `Fits` is what the
parameters of a walk must satisfy before it begins a pass over a grid; `Visits` is
the invariant of the pass.

`Once` holds of the walks that visit no index twice in a pass.  Means of draws
are the only kind of which no walk does.
-/
namespace SynthData.Walk

/-- The parameters of a walk suit a grid of `n` points. -/
def Fits (n : Nat) : Walk → Prop
  | shuffle w => 0 < w.increment
  | drift w => w.Fits n
  | random _ | cumulated _ | step _ | cycle _ | wedge _ | bitReverse _ | recurrence _ | first _ =>
    True

/-- The invariant of a pass over the grid of a range. -/
def Visits (spec : Spec) : Walk → Prop
  | random w => w.Visits spec.sampleCount
  | shuffle w => w.Visits spec.sampleCount
  | cumulated w => w.count = spec.sampleCount
  | drift w => w.Visits spec.sampleCount
  | step w => w.Visits spec.sampleCount
  | cycle w => w.Visits spec.sampleCount
  | wedge w => w.Visits spec.sampleCount
  | bitReverse w => w.Visits spec.sampleCount
  | recurrence w => w.Visits spec
  | first w => w.Visits spec.sampleCount

/-- The walk visits no index twice in a pass. -/
def Once : Walk → Prop
  | random w => w.unique = true
  | cumulated _ => False
  | drift w => w.unique = true
  | step w => w.delta.toInt ≠ 0
  | cycle w => w.unique = true
  | recurrence w => w.unique = true
  | shuffle _ | wedge _ | bitReverse _ | first _ => True

/-- The indices that a walk that visits no index twice may still visit. -/
def Pending : Walk → Nat → Prop
  | random w => w.Pending
  | shuffle w => w.Pending
  | cumulated _ => fun _ => False
  | drift w => w.Pending
  | step w => w.Pending
  | cycle w => w.Pending
  | wedge w => w.Pending
  | bitReverse w => w.Pending
  | recurrence w => w.Pending
  | first w => w.Pending

theorem Visits.fits {spec : Spec} {w : Walk} (hw : w.Visits spec) :
    w.Fits spec.sampleCount := by
  cases w with
  | shuffle w => exact Shuffle.Visits.stride_pos hw
  | drift w => exact Drift.Visits.toFits hw
  | _ => trivial

theorem visits_rewind {spec : Spec} {w : Walk} (hw : w.Fits spec.sampleCount) :
    (w.rewind spec).Visits spec := by
  cases w with
  | random w => exact w.visits_rewind spec
  | shuffle w => exact Shuffle.visits_rewind hw spec
  | cumulated w => exact rfl
  | drift w => exact Drift.visits_rewind hw
  | step w => exact w.visits_rewind spec
  | cycle w => exact w.visits_rewind spec
  | wedge w => exact w.visits_rewind spec
  | bitReverse w => exact w.visits_rewind spec
  | recurrence w => exact w.visits_rewind spec
  | first w => exact w.visits_rewind spec

/-- **A step of a pass** keeps its invariant, and the index that is visited has
a point of the grid. -/
theorem next_visits {spec : Spec} (hv : spec.validate = .ok ()) {w : Walk} (hw : w.Visits spec)
    (rng : Rng) : (w.next rng).2.1.Visits spec ∧ ∀ i ∈ (w.next rng).1, spec.HasPoint i := by
  -- all walks but one stay below the number of points
  suffices h : (w.next rng).2.1.Visits spec ∧
      ((∀ i ∈ (w.next rng).1, i < spec.sampleCount) ∨ ∀ i ∈ (w.next rng).1, spec.HasPoint i) from
    ⟨h.1, h.2.elim (fun hlt i hi => Spec.hasPoint_of_lt hv (hlt i hi)) id⟩
  cases w with
  | random w => exact (Random.next_visits hw rng).imp_right Or.inl
  | shuffle w => exact (Shuffle.next_visits hw).imp_right Or.inl
  | cumulated w => exact (Cumulated.next_lt hw spec.sampleCount_pos rng).imp_right Or.inl
  | drift w => exact (Drift.next_visits hw rng).imp_right Or.inl
  | step w => exact (Step.next_visits hw).imp_right Or.inl
  | cycle w => exact (Cycle.next_visits hw).imp_right Or.inl
  | wedge w => exact (Wedge.next_visits hw).imp_right Or.inl
  | bitReverse w => exact (BitReverse.next_visits hw).imp_right Or.inl
  | recurrence w => exact (Recurrence.next_visits hv hw).imp_right Or.inr
  | first w => exact (First.next_visits hw).imp_right Or.inl

theorem once_rewind {w : Walk} (hw : w.Once) (spec : Spec) : (w.rewind spec).Once := by
  cases w <;> exact hw

theorem once_next {w : Walk} (hw : w.Once) (rng : Rng) : (w.next rng).2.1.Once := by
  cases w with
  | random w => exact (w.next_unique rng).trans hw
  | cumulated w => exact hw.elim
  | drift w => exact (w.next_unique rng).trans hw
  | step w =>
    show w.next.2.delta.toInt ≠ 0
    rw [w.next_delta]
    exact hw
  | cycle w => exact w.next_unique.trans hw
  | recurrence w => exact hw
  | shuffle _ | wedge _ | bitReverse _ | first _ => trivial

/-- The walk finds its indices by a number of steps, or the numbers that it goes to have different
indices. -/
def TellsApart (spec : Spec) : Walk → Prop
  | recurrence _ => Recurrence.TellsApart spec
  | random _ | shuffle _ | cumulated _ | drift _ | step _ | cycle _ | wedge _ | bitReverse _
  | first _ => True

theorem tellsApart_of {spec : Spec} (h : Recurrence.TellsApart spec) (w : Walk) :
    w.TellsApart spec := by
  cases w with
  | recurrence w => exact h
  | _ => trivial

/-- No walk confuses whole numbers. -/
theorem tellsApart_long {min max granularity : Int64} (hg : 0 < granularity.toInt) (w : Walk) :
    w.TellsApart (.long min max granularity) :=
  tellsApart_of (fun _ _ _ => Recurrence.gridIndex?_inj hg) w

theorem tellsApart_rewind {spec : Spec} {w : Walk} (hw : w.TellsApart spec) (spec' : Spec) :
    (w.rewind spec').TellsApart spec := by
  cases w <;> exact hw

theorem tellsApart_next {spec : Spec} {w : Walk} (hw : w.TellsApart spec) (rng : Rng) :
    (w.next rng).2.1.TellsApart spec := by
  cases w <;> exact hw

/-- **A step of a walk without repetitions** uses the index up that it
visits. -/
theorem next_spends {spec : Spec} {w : Walk} (hw : w.Visits spec) (honce : w.Once)
    (hapart : w.TellsApart spec) (rng : Rng) : Spends Pending w (w.next rng).1 (w.next rng).2.1 := by
  cases w with
  | random w => exact (Random.next_spends hw honce rng).wrap random
  | shuffle w => exact (Shuffle.next_spends hw).wrap shuffle
  | cumulated w => exact honce.elim
  | drift w => exact (Drift.next_spends hw honce rng).wrap drift
  | step w => exact (Step.next_spends hw honce).wrap step
  | cycle w => exact (Cycle.next_spends honce).wrap cycle
  | wedge w => exact (Wedge.next_spends hw).wrap wedge
  | bitReverse w => exact (BitReverse.next_spends hw).wrap bitReverse
  | recurrence w => exact (Recurrence.next_spends hapart hw honce).wrap recurrence
  | first w => exact w.next_spends.wrap first

end SynthData.Walk
