import SynthData.Proofs.Strategy.Order
import SynthData.Proofs.Walk.Limit

/-!
# Equal steps over a whole range

Without an initial value and without a limit, equal steps go over all of a range: upwards from its
first point, downwards from its last one.  All places between two places that a walk may visit may
be visited too, so such a walk is at index `k * stride` in step `k`, or that far below the last
index, as long as there is such an index (`Walk.Step.goes_visited`).

So every pass over `n` points hands out every so many of them, `⌈n / stride⌉` numbers, and then no
number until it is begun again.  Steps of no points at all stay at the first point
(`Strategy.numbers_strided`).
-/
namespace SynthData

/-! ## The indices that are visited -/

namespace Walk.Step

variable {w : Step} {j k : Nat}

/-- Before a place that is allowed, a walk that begins at one is at no other places. -/
theorem allows_place_of_le (hstart : w.Allows w.current) (hk : w.Allows (w.place k)) (hj : j ≤ k) :
    w.Allows (w.place j) := by
  have hle : (j : Int) ≤ k := Int.ofNat_le.mpr hj
  have hj0 : 0 ≤ (j : Int) := Int.natCast_nonneg j
  simp only [Allows, place] at *
  rcases le_total 0 w.delta.toInt with hdelta | hdelta
  · have hrise := Int.mul_le_mul_of_nonneg_right hle hdelta
    have hnonneg := Int.mul_nonneg hj0 hdelta
    omega
  · have hfall := Int.mul_le_mul_of_nonpos_right hle hdelta
    have hnonpos := Int.mul_nonpos_of_nonneg_of_nonpos hj0 hdelta
    omega

/-- **What a step finds does not depend on the steps before it**, if the walk begins at an index
that is allowed. -/
theorem index_eq (hstart : w.Allows w.current) (k : Nat) :
    w.index k = if w.Allows (w.place k) then some (w.place k).toNat else none := by
  by_cases hk : w.Allows (w.place k)
  · rw [if_pos hk, index, if_pos fun j hj => allows_place_of_le hstart hk hj]
  · rw [if_neg hk, index, if_neg fun hall => hk (hall k (Nat.le_refl k))]

/-- The index that step `k` over `count` points finds: every so many indices, from the first one on,
or downwards from the last one on. -/
def visited (count : Nat) (delta : Int) (k : Nat) : Option Nat :=
  if k * delta.natAbs < count then
    some (if delta < 0 then count - 1 - k * delta.natAbs else k * delta.natAbs)
  else none

theorem place_rewind_new (spec : Spec) (delta : Int64) (k : Nat) :
    ((new delta none none).rewind spec).place k =
      if delta.toInt < 0 then ((spec.sampleCount - 1 : Nat) : Int) - (k * delta.toInt.natAbs : Nat)
      else (k * delta.toInt.natAbs : Nat) := by
  have hcount := spec.sampleCount_pos
  show (if delta < 0 then (spec.sampleCount : Int) - 1 else 0) + k * delta.toInt = _
  have hsign : delta < 0 ↔ delta.toInt < 0 := Int64.lt_iff_toInt_lt
  by_cases hneg : delta.toInt < 0
  · rw [if_pos (hsign.mpr hneg), if_pos hneg, Nat.cast_mul, Int.natCast_natAbs, abs_of_neg hneg,
      Nat.cast_pred hcount]
    ring
  · rw [if_neg (hsign.not.mpr hneg), if_neg hneg, Nat.cast_mul, Int.natCast_natAbs,
      abs_of_nonneg (not_lt.mp hneg), zero_add]

theorem allows_rewind_new (spec : Spec) (delta : Int64) (i : Int) :
    ((new delta none none).rewind spec).Allows i ↔ 0 ≤ i ∧ i < spec.sampleCount :=
  and_congr_right fun _ => Int.le_sub_one_iff

/-- **Equal steps without a limit visit every so many indices** of the whole range, and no others. -/
theorem goes_visited (spec : Spec) (delta : Int64) :
    ((Walk.step (.new delta none none)).rewind spec).Goes
      (visited spec.sampleCount delta.toInt) := by
  have hcount := spec.sampleCount_pos
  have hstart : ((new delta none none).rewind spec).Allows
      ((new delta none none).rewind spec).current := by
    rw [← place_zero, place_rewind_new, allows_rewind_new]
    split <;> omega
  have hindex : ((new delta none none).rewind spec).index =
      visited spec.sampleCount delta.toInt := by
    funext k
    simp only [index_eq hstart, place_rewind_new, allows_rewind_new, visited]
    generalize k * delta.toInt.natAbs = far
    by_cases hfar : far < spec.sampleCount
    · rw [if_pos hfar, if_pos (by split <;> omega)]
      split
      · rw [← Int.ofNat_sub (by omega), Int.toNat_natCast]
      · rw [Int.toNat_natCast]
    · rw [if_neg hfar, if_neg (by split <;> omega)]
  exact hindex ▸ goes ((new delta none none).rewind spec)

end Walk.Step

/-! ## Passes -/

namespace Strategy

open Walk (Step)

variable {spec : Spec} {delta : Int64}

/-- How many of `n` points there are in strides. -/
def strideCount (n stride : Nat) : Nat := ⌈(n / stride : ℚ)⌉₊

/-- They are those that are less than `n` points away. -/
theorem lt_strideCount_iff {n stride k : Nat} (hstride : 0 < stride) :
    k < strideCount n stride ↔ k * stride < n := by
  rw [strideCount, Nat.lt_ceil, lt_div_iff₀ (by exact_mod_cast hstride)]
  exact_mod_cast Iff.rfl

/-- **What a generator by equal steps hands out** in each of its passes, and at which call of the
pass. -/
structure Strided (spec : Spec) (delta : Int64) (gen : NumberGen) : Prop where
  /-- Steps upwards come to every so many points, from the first one on. -/
  upwards : 0 < delta → NumberGen.machine.EachPass gen fun k =>
    if k < strideCount spec.sampleCount delta.toInt.natAbs then
      some (spec.valueAt (k * delta.toInt.natAbs))
    else none
  /-- Steps downwards come to every so many points, from the last one on. -/
  downwards : delta < 0 → NumberGen.machine.EachPass gen fun k =>
    if k < strideCount spec.sampleCount delta.toInt.natAbs then
      some (spec.valueAt (spec.sampleCount - 1 - k * delta.toInt.natAbs))
    else none
  /-- Steps of no points stay at the first one for ever. -/
  still : delta = 0 → NumberGen.machine.EachPass gen fun _ => some (spec.valueAt 0)
  /-- As many strides are taken as lead to an index of the range. -/
  inside : delta ≠ 0 → ∀ k, k < strideCount spec.sampleCount delta.toInt.natAbs ↔
    k * delta.toInt.natAbs < spec.sampleCount

/-- **Equal steps over a whole range go on in strides.** -/
theorem strided_grid (hv : spec.validate = .ok ()) (delta : Int64) :
    Strided spec delta (.grid NumberGen.stepOwner (.new spec (.step (.new delta none none)))) := by
  have hpass := NumberGen.eachPass_grid NumberGen.stepOwner hv
    (show Walk.Drawless (.step (.new delta none none)) from trivial)
    (Step.goes_visited spec delta)
  have hsign : delta < 0 ↔ delta.toInt < 0 := Int64.lt_iff_toInt_lt
  have hstride (hdelta : delta ≠ 0) : 0 < delta.toInt.natAbs :=
    Int.natAbs_pos.mpr fun hzero => hdelta (Int64.toInt_inj.mp hzero)
  refine ⟨fun hdelta => ?up, fun hdelta => ?down, ?still, fun hdelta k => ?inside⟩
  case up =>
    convert hpass using 2 with k
    rw [Step.visited, if_neg (hsign.not.mp (Int64.lt_asymm hdelta))]
    simp only [lt_strideCount_iff (hstride (Int64.ne_of_lt hdelta).symm)]
    split <;> rfl
  case down =>
    convert hpass using 2 with k
    rw [Step.visited, if_pos (hsign.mp hdelta)]
    simp only [lt_strideCount_iff (hstride (Int64.ne_of_lt hdelta))]
    split <;> rfl
  case still =>
    rintro rfl
    convert hpass using 2 with k
    rw [Step.visited, show (0 : Int64).toInt = 0 from rfl, Int.natAbs_zero, Nat.mul_zero,
      if_pos spec.sampleCount_pos, if_neg (lt_irrefl 0)]
    rfl
  case inside => exact lt_strideCount_iff (hstride hdelta)

/-- Equal steps are refused where different numbers are wanted of steps of no points. -/
theorem numbers_still_unique (hv : spec.validate = .ok ()) :
    (step 0 none none).numbers spec true = .error .stepUnique := by
  simp only [numbers, hv, show (step 0 none none).check true = .error .stepUnique from rfl]

/-- **Equal steps over a range of whole numbers.**  Without an initial value and a limit there is a
generator for steps of every size, unless different numbers are wanted of steps of no points.  In
every pass it hands out the points in strides from the first one on, or downwards from the last one
on, `⌈n / |delta|⌉` of the `n` points, and then no number until the next pass; steps of no points
hand out the least number for ever.  The point at index `i` is the number `min + i * granularity`. -/
theorem numbers_strided {min max granularity : Int64}
    (hv : (Spec.long min max granularity).validate = .ok ()) (delta : Int64) (unique : Bool) :
    (unique = true → delta = 0 →
      (step delta none none).numbers (.long min max granularity) unique = .error .stepUnique) ∧
    ((unique = true → delta ≠ 0) →
      ∃ gen, (step delta none none).numbers (.long min max granularity) unique = .ok gen ∧
        Strided (.long min max granularity) delta gen) ∧
    (Spec.long min max granularity).valueAt 0 = .long min ∧
    ∀ i < (Spec.long min max granularity).sampleCount, ∃ v : Int64,
      (Spec.long min max granularity).valueAt i = .long v ∧
        v.toInt = min.toInt + i * granularity.toInt := by
  refine ⟨?refused, fun hunique => ⟨_, numbers_step_new hv hunique, strided_grid hv delta⟩,
    Spec.valueAt_zero hv,
    fun _ hi => Spec.valueAt_long (Spec.validate_long.mp hv).2 (Spec.hasPoint_of_lt hv hi)⟩
  case refused =>
    rintro rfl rfl
    exact numbers_still_unique hv

/-- Steps downwards by three points take two of the four points -3, -1, 1 and 3. -/
theorem numbers_strided_downwards :
    (Spec.long (-3) 4 2).validate = .ok () ∧
      ∃ gen, (step (-3) none none).numbers (.long (-3) 4 2) true = .ok gen ∧
        NumberGen.machine.EachPass gen fun k => [Number.long 3, .long (-3)][k]? := by
  have hv : (Spec.long (-3) 4 2).validate = .ok () := rfl
  obtain ⟨-, hmade, -⟩ := numbers_strided hv (-3) true
  obtain ⟨gen, hgen, hstrided⟩ := hmade fun _ => by decide
  refine ⟨hv, gen, hgen, ?_⟩
  have hdown := hstrided.downwards (by decide)
  simp only [show (Spec.long (-3) 4 2).sampleCount = 4 from rfl,
    show (-3 : Int64).toInt.natAbs = 3 from rfl, lt_strideCount_iff (Nat.succ_pos 2)] at hdown
  convert hdown using 2 with k
  match k with
  | 0 | 1 => rfl
  | k + 2 => rw [if_neg (by omega)]; rfl

end Strategy
end SynthData
