import SynthData.Proofs.Grid.Floor
import SynthData.Proofs.Walk.Drawless
import SynthData.Proofs.Walk.Ordered

/-!
# Equal steps and their limit

`Step.index` says which indices a walk by equal steps finds: it goes on from place to place until
one of them is not allowed (`Step.goes`).

Which indices are allowed depends on the limit.  Downwards, the point that is found for the limit is
compared with it again, and no allowed index has a point below the limit
(`le_point_of_allowed`).  Upwards, it is not: the indices of points above the limit that are allowed
are those up to the quotient that is calculated for it (`allowed_iff_le_quotient`).
-/
namespace SynthData.Walk.Step

open Binary64 (Reads)

variable {w : Step} {k i : Nat}

/-! ## Places -/

/-- Where the walk is after some steps, if nothing stops it. -/
def place (w : Step) (k : Nat) : Int := w.current + k * w.delta.toInt

/-- The indices that the walk may visit. -/
def Allows (w : Step) (i : Int) : Prop := w.low ≤ i ∧ i ≤ w.high

instance (w : Step) (i : Int) : Decidable (w.Allows i) := inferInstanceAs (Decidable (_ ∧ _))

/-- The index that step `k` finds, unless the walk has been stopped before. -/
def index (w : Step) (k : Nat) : Option Nat :=
  if ∀ j, j ≤ k → w.Allows (w.place j) then some (w.place k).toNat else none

theorem place_zero (w : Step) : w.place 0 = w.current := by simp [place]

theorem next_of_allows (h : w.Allows w.current) :
    w.next = (some w.current.toNat, { w with current := w.current + w.delta.toInt }) :=
  if_neg (by have := h.1; have := h.2; omega)

theorem next_of_not_allows (h : ¬ w.Allows w.current) : w.next = (none, w) :=
  if_pos (by simp only [Allows] at h; omega)

/-- A walk that is allowed to be where it is finds what the walk from the next place on finds. -/
theorem index_succ (h : w.Allows w.current) (k : Nat) :
    w.index (k + 1) = index { w with current := w.current + w.delta.toInt } k := by
  have hplace (j : Nat) :
      w.place (j + 1) = place { w with current := w.current + w.delta.toInt } j := by
    simp only [place, Nat.cast_succ, Int.add_mul, Int.one_mul]
    omega
  have hall : (∀ j, j ≤ k + 1 → w.Allows (w.place j)) ↔
      ∀ j, j ≤ k → w.Allows (place { w with current := w.current + w.delta.toInt } j) := by
    refine ⟨fun hall j hj => hplace j ▸ hall (j + 1) (Nat.succ_le_succ hj), fun hall j hj => ?_⟩
    cases j with
    | zero => rwa [place_zero]
    | succ j => exact hplace j ▸ hall j (Nat.le_of_succ_le_succ hj)
  simp only [index, hall, hplace]
  rfl

theorem index_of_not_allows (h : ¬ w.Allows w.current) (k : Nat) : w.index k = none :=
  if_neg fun hall => h (w.place_zero ▸ hall 0 (Nat.zero_le k))

/-- **A walk by equal steps finds the places that it gets to.** -/
theorem goes (w : Step) : (Walk.step w).Goes w.index := by
  refine .of_step (fun walk index => ∃ w : Step, walk = .step w ∧ index = w.index) ?_ ⟨w, rfl, rfl⟩
  rintro _ _ rng ⟨w, rfl, rfl⟩
  show w.next.1 = w.index 0 ∧
    ∃ w' : Step, Walk.step w.next.2 = .step w' ∧ (fun k => w.index (k + 1)) = w'.index
  by_cases h : w.Allows w.current
  · rw [next_of_allows h]
    refine ⟨?_, _, rfl, funext (index_succ h)⟩
    rw [index, if_pos (by intro j hj; rwa [Nat.le_zero.mp hj, place_zero]), place_zero]
  · rw [next_of_not_allows h]
    refine ⟨(index_of_not_allows h 0).symm, w, rfl, funext fun k => ?_⟩
    rw [index_of_not_allows h, index_of_not_allows h]

theorem allows_of_index (hlow : 0 ≤ w.low) (h : w.index k = some i) :
    w.Allows i ∧ (i : Int) = w.place k := by
  unfold index at h
  split at h
  · next hall =>
    obtain ⟨hle, hge⟩ := hall k (Nat.le_refl k)
    obtain rfl := Option.some.inj h
    rw [Int.toNat_of_nonneg (hlow.trans hle)]
    exact ⟨⟨hle, hge⟩, rfl⟩
  · cases h

/-- Upwards, a walk gets to every place up to the last index that is allowed. -/
theorem index_of_upwards (hstart : w.low ≤ w.current) (hdelta : 0 ≤ w.delta.toInt)
    (hi : (i : Int) = w.place k) (hallows : w.Allows i) : w.index k = some i := by
  have hall (j : Nat) (hj : j ≤ k) : w.Allows (w.place j) := by
    have hrise : (j : Int) * w.delta.toInt ≤ k * w.delta.toInt :=
      Int.mul_le_mul_of_nonneg_right (by omega) hdelta
    have hnonneg : 0 ≤ (j : Int) * w.delta.toInt := Int.mul_nonneg (Int.natCast_nonneg j) hdelta
    have hge := hallows.2
    rw [hi] at hge
    simp only [Allows, place] at hge ⊢
    omega
  rw [index, if_pos hall, ← hi, Int.toNat_natCast]

/-! ## Limits -/

section Limits

variable {min max granularity : Int64} (hv : (Spec.long min max granularity).validate = .ok ())
  (hmin : |min.toInt| ≤ 2 ^ 53) (hmax : |max.toInt| ≤ 2 ^ 53) {limit : Float} {l : ℚ}
  (hlimit : Reads limit l) {delta : Int64}

include hv hmin hmax

/-- Points of a range of 53 bits are kept by their doubles. -/
theorem reads_valueAt (hi : i < (Spec.long min max granularity).sampleCount) :
    Reads ((Spec.long min max granularity).valueAt i).toFloat
      (min.toInt + i * granularity.toInt) := by
  obtain ⟨-, hg⟩ := Spec.validate_long.mp hv
  have hpoint := Spec.hasPoint_of_lt hv hi
  obtain ⟨v, hvalue, hint⟩ := Spec.valueAt_long hg hpoint
  have hle : min.toInt + i * granularity.toInt ≤ max.toInt := hpoint
  have hnonneg : 0 ≤ (i : Int) * granularity.toInt :=
    Int.mul_nonneg (Int.natCast_nonneg i) hg.le
  have hreads := reads_nearest_of_le (v := v) (by rw [abs_le] at *; omega)
  rw [hint] at hreads
  push_cast at hreads
  rw [hvalue]
  exact hreads

include hlimit in
/-- **Upwards, a point above the limit is allowed if and only if the quotient reaches its
index.** -/
theorem allowed_iff_le_quotient (hdelta : 0 ≤ delta)
    (hi : i < (Spec.long min max granularity).sampleCount)
    (habove : l < min.toInt + i * granularity.toInt) :
    ((bounds (.long min max granularity) delta (some limit)).1 ≤ (i : Int) ∧
        (i : Int) ≤ (bounds (.long min max granularity) delta (some limit)).2) ↔
      (min.toInt : ℚ) ≤ l ∧ (i : ℚ) ≤ Spec.quotient min.toInt granularity.toInt l := by
  obtain ⟨-, hg⟩ := Spec.validate_long.mp hv
  have hpoint : min.toInt + (i : Int) * granularity.toInt ≤ max.toInt := Spec.hasPoint_of_lt hv hi
  have hbelow : l ≤ max.toInt := habove.le.trans (by exact_mod_cast hpoint)
  have hleast := reads_lesser hlimit (reads_nearest_of_le hmax)
  rw [min_eq_left hbelow] at hleast
  have hindex := Spec.floorIndex?_long hmin hmax hv hleast
  rw [bounds, if_pos hdelta,
    show (Spec.long min max granularity).max.toFloat = Number.nearest max from rfl, hindex]
  by_cases hle : (min.toInt : ℚ) ≤ l
  · have hquotient := (Spec.quotient_mem hg hle (Spec.distance_le hmin hmax hbelow)).1
    rw [if_pos ⟨hle, hbelow⟩, and_iff_right hle, ← Nat.le_floor_iff hquotient]
    dsimp only
    omega
  · rw [if_neg (by tauto)]
    dsimp only
    exact iff_of_false (by omega) (by tauto)

/-- A point below the limit is followed by one that is not, if it is the one that is found. -/
theorem le_next_point {j : Nat} (hj : j + 1 < (Spec.long min max granularity).sampleCount)
    (hfound : ⌊Spec.quotient min.toInt granularity.toInt l⌋₊ = j) (hmem : (min.toInt : ℚ) ≤ l)
    (hbelow : l ≤ max.toInt) : l ≤ min.toInt + ((j + 1 : Nat) : ℚ) * granularity.toInt := by
  obtain ⟨-, hg⟩ := Spec.validate_long.mp hv
  have hpoint : min.toInt + ((j + 1 : Nat) : Int) * granularity.toInt ≤ max.toInt :=
    Spec.hasPoint_of_lt hv hj
  by_contra hnot
  have hquotient : (((j + 1 : Nat) : Int) : ℚ) ≤ Spec.quotient min.toInt granularity.toInt l :=
    Spec.le_quotient_of_lt (by omega) hg (by rw [abs_le] at hmin hmax; omega)
      (by simpa using not_le.mp hnot)
  have hnonneg := (Spec.quotient_mem hg hmem (Spec.distance_le hmin hmax hbelow)).1
  rw [Int.cast_natCast, ← Nat.le_floor_iff hnonneg] at hquotient
  omega

include hlimit

/-- **Downwards, no point below the limit is allowed.** -/
theorem le_point_of_allowed (hdelta : ¬ 0 ≤ delta)
    (hallowed : (bounds (.long min max granularity) delta (some limit)).1 ≤ (i : Int) ∧
      (i : Int) ≤ (bounds (.long min max granularity) delta (some limit)).2) :
    l ≤ min.toInt + i * granularity.toInt := by
  obtain ⟨hordered, hg⟩ := Spec.validate_long.mp hv
  have hcount := (Spec.long min max granularity).sampleCount_pos
  have hgreatest := reads_greater hlimit (reads_nearest_of_le hmin)
  have hindex := Spec.floorIndex?_long hmin hmax hv hgreatest
  have hrise {j : Nat} (hj : j ≤ i) :
      (min.toInt : ℚ) + j * granularity.toInt ≤ min.toInt + i * granularity.toInt := by
    have hle : (j : ℚ) ≤ i := by exact_mod_cast hj
    have hnonneg : (0 : ℚ) ≤ granularity.toInt := by exact_mod_cast hg.le
    nlinarith
  rw [bounds, if_neg hdelta,
    show (Spec.long min max granularity).min.toFloat = Number.nearest min from rfl,
    hindex] at hallowed
  by_cases hle : l ≤ max.toInt
  · rw [if_pos ⟨le_max_right _ _, max_le hle (by exact_mod_cast hordered)⟩] at hallowed
    generalize hfound : Min.min ⌊Spec.quotient _ _ _⌋₊ _ = j at hallowed
    have hj : j < (Spec.long min max granularity).sampleCount := by omega
    have hpoint := (reads_valueAt hv hmin hmax hj).lt_iff hlimit
    dsimp only at hallowed
    split at hallowed
    · next hlt =>
      have hbefore := hpoint.mp hlt
      have hnonneg : (0 : ℚ) ≤ j * granularity.toInt :=
        mul_nonneg (Nat.cast_nonneg j) (by exact_mod_cast hg.le)
      have hmem : (min.toInt : ℚ) ≤ l := by linarith
      rw [max_eq_left hmem] at hfound
      exact (le_next_point hv hmin hmax (j := j) (by omega) (by omega) hmem hle).trans
        (hrise (by omega))
    · next hnot => exact (not_lt.mp (hpoint.not.mp hnot)).trans (hrise (by omega))
  · rw [if_neg fun h => hle ((le_max_left _ _).trans h.2)] at hallowed
    dsimp only at hallowed
    omega

end Limits

end SynthData.Walk.Step
