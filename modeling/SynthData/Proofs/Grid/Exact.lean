import Mathlib.Order.Interval.Set.Nat
import SynthData.Proofs.Guarded.Points

/-!
# Grids of whole numbers are exact

A range of whole numbers may reach from the least to the greatest number of 64 bits.  Its distance
has 64 bits without a sign then, and the number of its points may have one bit more.  The count of
the points is right all the same, unless it is cut to 64 bits, and the point at an index below the
count is the one that the arithmetic of integers gives (`Spec.exact_of_valid`).

Only one grid has its count cut: that of all numbers of 64 bits, where the last point has no index
left (`Spec.greatest_of_not_counted`).
-/
namespace SynthData
namespace Spec

variable {min max granularity : Int64}

/-- The indices `k` with `min + k * granularity ≤ max`. -/
def indicesOf (min max granularity : Int64) : Set ℕ :=
  {k | min.toInt + k * granularity.toInt ≤ max.toInt}

/-- **A grid is exact.**  Its points are counted up to the largest number of 64 bits, they ascend
with their indices, and none of them is missed but the greatest number of 64 bits where all of them
are points.  No step of the count or of a point is broken off in signed words of 128 bits, whatever
the index, and an index past the end gives a number of the range too. -/
structure Exact (min max granularity : Int64) : Prop where
  finite : (indicesOf min max granularity).Finite
  count : (long min max granularity).sampleCount =
    Min.min (indicesOf min max granularity).ncard (2 ^ 64 - 1)
  point : ∀ i < (long min max granularity).sampleCount,
    ∃ v, (long min max granularity).valueAt i = .long v ∧
      v.toInt = min.toInt + i * granularity.toInt
  ascending : ∀ i j, i < j → j < (long min max granularity).sampleCount →
    ∃ v w, (long min max granularity).valueAt i = .long v ∧
      (long min max granularity).valueAt j = .long w ∧ v < w
  /-- The numbers with an index are the points, without the greatest of 2 ^ 64 of them. -/
  complete : ∀ v : Int64,
    (∃ i < (long min max granularity).sampleCount,
      (long min max granularity).valueAt i = .long v) ↔
    IsPoint min max granularity (.long v) ∧
      ¬ ((indicesOf min max granularity).ncard = 2 ^ 64 ∧ v = Int64.maxValue)
  count_fits : (long min max granularity).guardedCount = .ok (long min max granularity).sampleCount
  point_fits : ∀ i < 2 ^ 64,
    (long min max granularity).guardedValueAt i = .ok ((long min max granularity).valueAt i)
  inside : ∀ i, ∃ v, (long min max granularity).valueAt i = .long v ∧ min ≤ v ∧ v ≤ max ∧
    v.toInt = Min.min (min.toInt + i * granularity.toInt) max.toInt

/-! ## Counting -/

/-- The steps from the least to the greatest number of the range. -/
def stepsOf (min max granularity : Int64) : ℕ :=
  (max.toInt - min.toInt).toNat / granularity.toInt.toNat

/-- The indices of points are those up to the number of steps. -/
theorem mem_indicesOf_iff (hv : (long min max granularity).validate = .ok ()) {k : ℕ} :
    k ∈ indicesOf min max granularity ↔ k < stepsOf min max granularity + 1 := by
  obtain ⟨hle, hg⟩ := validate_long.mp hv
  show min.toInt + k * granularity.toInt ≤ max.toInt ↔ _
  rw [Nat.lt_succ_iff, stepsOf, Nat.le_div_iff_mul_le (by omega)]
  have hcast : ((k * granularity.toInt.toNat : ℕ) : ℤ) = k * granularity.toInt := by
    rw [Int.natCast_mul, Int.toNat_of_nonneg (by omega)]
  omega

theorem indicesOf_eq (hv : (long min max granularity).validate = .ok ()) :
    indicesOf min max granularity = Set.Iio (stepsOf min max granularity + 1) :=
  Set.ext fun _ => mem_indicesOf_iff hv

/-- **Points are one more than steps.** -/
theorem ncard_indicesOf (hv : (long min max granularity).validate = .ok ()) :
    (indicesOf min max granularity).ncard = stepsOf min max granularity + 1 := by
  rw [indicesOf_eq hv, Set.ncard_Iio_nat]

theorem sampleCount_eq (hv : (long min max granularity).validate = .ok ()) :
    (long min max granularity).sampleCount =
      Min.min (stepsOf min max granularity + 1) (2 ^ 64 - 1) := by
  obtain ⟨-, hg⟩ := validate_long.mp hv
  have hone : granularity.toInt.toNat.max 1 = granularity.toInt.toNat :=
    Nat.max_eq_left (by omega)
  simp only [sampleCount, hone]
  rfl

/-- **A point whose index is not counted is the greatest number of 64 bits**, and all numbers of 64
bits are points then. -/
theorem greatest_of_not_counted (hv : (long min max granularity).validate = .ok ()) {k : ℕ}
    (hk : k ∈ indicesOf min max granularity)
    (hcut : (long min max granularity).sampleCount ≤ k) :
    stepsOf min max granularity + 1 = 2 ^ 64 ∧
      min.toInt + k * granularity.toInt = Int64.maxValue.toInt := by
  obtain ⟨hle, hg⟩ := validate_long.mp hv
  have hindex := (mem_indicesOf_iff hv).mp hk
  have hk : min.toInt + k * granularity.toInt ≤ max.toInt := hk
  rw [sampleCount_eq hv] at hcut
  have hsteps : stepsOf min max granularity ≤ (max.toInt - min.toInt).toNat :=
    Nat.div_le_self _ _
  have hmin := min.le_toInt
  have hmax := max.toInt_lt
  have hmul : (k : ℤ) * 1 ≤ k * granularity.toInt :=
    Int.mul_le_mul_of_nonneg_left (by omega) (by omega)
  have hgreatest : Int64.maxValue.toInt = 2 ^ 63 - 1 := rfl
  omega

/-! ## Values -/

/-- **Every index gives a number of the range**, the last one if there is no point left. -/
theorem valueAt_inside (hv : (long min max granularity).validate = .ok ()) (i : ℕ) :
    ∃ v, (long min max granularity).valueAt i = .long v ∧ min ≤ v ∧ v ≤ max ∧
      v.toInt = Min.min (min.toInt + i * granularity.toInt) max.toInt := by
  obtain ⟨hle, hg⟩ := validate_long.mp hv
  have hmin := min.le_toInt
  have hmax := max.toInt_lt
  have hmul : 0 ≤ (i : ℤ) * granularity.toInt := Int.mul_nonneg (Int.natCast_nonneg i) (by omega)
  have hint : (Int64.ofInt (Min.min (min.toInt + i * granularity.toInt) max.toInt)).toInt =
      Min.min (min.toInt + i * granularity.toInt) max.toInt :=
    Int64.toInt_ofInt_of_le (by omega) (by omega)
  refine ⟨_, rfl, ?_, ?_, hint⟩
  · rw [Int64.le_iff_toInt_le, hint]
    omega
  · rw [Int64.le_iff_toInt_le, hint]
    omega

/-- **Points ascend with their indices.** -/
theorem valueAt_lt (hv : (long min max granularity).validate = .ok ()) {i j : ℕ} (hij : i < j)
    (hj : j < (long min max granularity).sampleCount) :
    ∃ v w, (long min max granularity).valueAt i = .long v ∧
      (long min max granularity).valueAt j = .long w ∧ v < w := by
  have hg := (validate_long.mp hv).2
  obtain ⟨v, hv', hvint⟩ := valueAt_long hg (hasPoint_of_lt hv (Nat.lt_trans hij hj))
  obtain ⟨w, hw, hwint⟩ := valueAt_long hg (hasPoint_of_lt hv hj)
  refine ⟨v, w, hv', hw, ?_⟩
  rw [Int64.lt_iff_toInt_lt, hvint, hwint]
  exact Int.add_lt_add_left (Int.mul_lt_mul_of_pos_right (by omega) hg) _

/-- A number below the count is less than the greatest one of 64 bits if the count is cut. -/
theorem valueAt_lt_greatest (hv : (long min max granularity).validate = .ok ()) {i : ℕ}
    (hi : i < (long min max granularity).sampleCount)
    (hcut : stepsOf min max granularity + 1 = 2 ^ 64) :
    (long min max granularity).valueAt i ≠ .long Int64.maxValue := by
  obtain ⟨hle, hg⟩ := validate_long.mp hv
  obtain ⟨v, hvalue, hint⟩ := valueAt_long hg (hasPoint_of_lt hv hi)
  rw [sampleCount_eq hv, hcut] at hi
  have hbelow : i < stepsOf min max granularity := by omega
  have hlast : min.toInt + stepsOf min max granularity * granularity.toInt ≤ max.toInt :=
    (mem_indicesOf_iff hv).mpr (Nat.lt_succ_self _)
  have hmul : (i : ℤ) * granularity.toInt < stepsOf min max granularity * granularity.toInt :=
    Int.mul_lt_mul_of_pos_right (by omega) hg
  have hmax := max.toInt_lt
  rw [hvalue]
  intro heq
  have hgreatest : v.toInt = 2 ^ 63 - 1 := congrArg Int64.toInt (Number.long.inj heq)
  omega

/-- **All points have an index that is counted**, except the greatest number of 64 bits if all of
them are points. -/
theorem exists_valueAt_iff (hv : (long min max granularity).validate = .ok ()) (v : Int64) :
    (∃ i < (long min max granularity).sampleCount,
      (long min max granularity).valueAt i = .long v) ↔
    IsPoint min max granularity (.long v) ∧
      ¬ (stepsOf min max granularity + 1 = 2 ^ 64 ∧ v = Int64.maxValue) := by
  have hg := (validate_long.mp hv).2
  constructor
  · rintro ⟨i, hi, hvalue⟩
    refine ⟨hvalue ▸ isPoint_valueAt hg (hasPoint_of_lt hv hi), ?_⟩
    rintro ⟨hcut, rfl⟩
    exact valueAt_lt_greatest hv hi hcut hvalue
  · rintro ⟨⟨v', k, heq, hmin, hmax, hint⟩, hrest⟩
    obtain rfl := Number.long.inj heq
    have hk : min.toInt + k * granularity.toInt ≤ max.toInt :=
      hint ▸ Int64.le_iff_toInt_le.mp hmax
    by_cases hcounted : k < (long min max granularity).sampleCount
    · obtain ⟨w, hw, hwint⟩ := valueAt_long hg hk
      refine ⟨k, hcounted, ?_⟩
      rw [hw, Int64.toInt_inj.mp (hwint.trans hint.symm)]
    · obtain ⟨hcut, hgreatest⟩ := greatest_of_not_counted hv hk (Nat.le_of_not_lt hcounted)
      exact absurd ⟨hcut, Int64.toInt_inj.mp (hint.trans hgreatest)⟩ hrest

/-- **Every valid range of whole numbers has an exact grid**, whatever its bounds. -/
theorem exact_of_valid (hv : (long min max granularity).validate = .ok ()) :
    Exact min max granularity where
  finite := indicesOf_eq hv ▸ Set.finite_Iio _
  count := by rw [ncard_indicesOf hv, sampleCount_eq hv]
  point _ hi := valueAt_long (validate_long.mp hv).2 (hasPoint_of_lt hv hi)
  ascending _ _ hij hj := valueAt_lt hv hij hj
  complete v := by
    rw [ncard_indicesOf hv]
    exact exists_valueAt_iff hv v
  count_fits := guardedCount_eq hv
  point_fits _ hi := guardedValueAt_eq hi
  inside := valueAt_inside hv

/-- The grid of all numbers of 64 bits, and one with the widest step of them. -/
theorem exact_of_valid_allNumbers :
    ((long Int64.minValue Int64.maxValue 1).validate = .ok () ∧
      Exact Int64.minValue Int64.maxValue 1) ∧
    ((long Int64.minValue Int64.maxValue Int64.maxValue).validate = .ok () ∧
      Exact Int64.minValue Int64.maxValue Int64.maxValue) :=
  ⟨⟨rfl, exact_of_valid rfl⟩, ⟨rfl, exact_of_valid rfl⟩⟩

end Spec
end SynthData
