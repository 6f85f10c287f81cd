import SynthData.Grid.Spec

/-!
# The points of a grid

`Spec.HasPoint` says which indices have a grid point.  On whole numbers these
are the indices `i` with `min + i * granularity ≤ max`; all indices below
`sampleCount` are among them (`hasPoint_of_lt`), also where the count is cut at
the largest number of 64 bits.

On an index that has a point, `valueAt` is exact (`valueAt_long`), so its result
is a point of the grid (`IsPoint`) and different indices have different points
(`valueAt_inj`).
-/
namespace SynthData
namespace Spec

/-- The indices that have a grid point. -/
def HasPoint : Spec → Nat → Prop
  | long min max granularity, i => min.toInt + i * granularity.toInt ≤ max.toInt
  | double min max granularity, i => i < (double min max granularity).sampleCount

/-- The numbers `min + k * granularity` from `min` to `max`. -/
def IsPoint (min max granularity : Int64) (n : Number) : Prop :=
  ∃ (v : Int64) (k : Nat), n = .long v ∧ min ≤ v ∧ v ≤ max ∧
    v.toInt = min.toInt + k * granularity.toInt

/-- Different points are different numbers. -/
def Injective (spec : Spec) : Prop :=
  ∀ i j, spec.HasPoint i → spec.HasPoint j → spec.valueAt i = spec.valueAt j → i = j

theorem maxWord_pos : 0 < maxWord := by decide

/-- Every grid has a point. -/
theorem sampleCount_pos (spec : Spec) : 0 < spec.sampleCount := by
  cases spec with
  | long min max granularity =>
    exact Nat.lt_min.mpr ⟨Nat.succ_pos _, maxWord_pos⟩
  | double min max granularity =>
    show 0 < if _ then maxWord else _ + 1
    split
    · exact maxWord_pos
    · exact Nat.succ_pos _

theorem floorIndex?_lt {spec : Spec} {x : Float} {i : Nat} (h : spec.floorIndex? x = some i) :
    i < spec.sampleCount := by
  have hpos := spec.sampleCount_pos
  revert h
  unfold floorIndex?
  split
  dsimp only
  split
  · intro h; cases h
  · intro h
    rw [← Option.some.inj h]
    exact Nat.lt_of_le_of_lt (Nat.min_le_right _ _) (by omega)

section Long

variable {min max granularity : Int64}

/-- A valid range of whole numbers has its bounds in order and a granularity
that leads upwards. -/
theorem validate_long : (long min max granularity).validate = .ok () ↔
    min.toInt ≤ max.toInt ∧ 0 < granularity.toInt := by
  simp only [validate, Int64.lt_iff_toInt_lt, Int64.le_iff_toInt_le, Int64.toInt_zero]
  split
  · simp; omega
  · split
    · simp; omega
    · simp; omega

theorem valueAt_long {i : Nat} (hg : 0 < granularity.toInt)
    (hi : (long min max granularity).HasPoint i) :
    ∃ v : Int64, (long min max granularity).valueAt i = .long v ∧
      v.toInt = min.toInt + i * granularity.toInt := by
  refine ⟨_, rfl, ?_⟩
  have hi : min.toInt + i * granularity.toInt ≤ max.toInt := hi
  have hmul : 0 ≤ i * granularity.toInt := Int.mul_nonneg (Int.natCast_nonneg i) (by omega)
  have hmin := min.le_toInt
  have hmax := max.toInt_lt
  rw [Int.min_eq_left hi, Int64.toInt_ofInt_of_le (by omega) (by omega)]

/-- The value at an index that has a point is a point. -/
theorem isPoint_valueAt {i : Nat} (hg : 0 < granularity.toInt)
    (hi : (long min max granularity).HasPoint i) :
    IsPoint min max granularity ((long min max granularity).valueAt i) := by
  obtain ⟨v, hv, hint⟩ := valueAt_long hg hi
  have hi : min.toInt + i * granularity.toInt ≤ max.toInt := hi
  have hmul : 0 ≤ i * granularity.toInt := Int.mul_nonneg (Int.natCast_nonneg i) (by omega)
  exact ⟨v, i, hv, Int64.le_iff_toInt_le.mpr (by omega), Int64.le_iff_toInt_le.mpr (by omega), hint⟩

/-- Different indices have different points. -/
theorem valueAt_inj {i j : Nat} (hg : 0 < granularity.toInt)
    (hi : (long min max granularity).HasPoint i) (hj : (long min max granularity).HasPoint j)
    (h : (long min max granularity).valueAt i = (long min max granularity).valueAt j) : i = j := by
  obtain ⟨v, hv, hvi⟩ := valueAt_long hg hi
  obtain ⟨w, hw, hwj⟩ := valueAt_long hg hj
  rw [hv, hw] at h
  obtain rfl := Number.long.inj h
  have hmul : (i : Int) * granularity.toInt = j * granularity.toInt := by omega
  exact Int.ofNat.inj (Int.eq_of_mul_eq_mul_right (by omega) hmul)

theorem injective_long (hv : (long min max granularity).validate = .ok ()) :
    (long min max granularity).Injective :=
  fun _ _ => valueAt_inj (validate_long.mp hv).2

end Long

/-- An index below the count of a valid range has a point. -/
theorem hasPoint_of_lt {spec : Spec} (hv : spec.validate = .ok ()) {i : Nat}
    (hi : i < spec.sampleCount) : spec.HasPoint i := by
  cases spec with
  | double min max granularity => exact hi
  | long min max granularity =>
    obtain ⟨hle, hg⟩ := validate_long.mp hv
    show min.toInt + i * granularity.toInt ≤ max.toInt
    have hsteps : i ≤ (max.toInt - min.toInt).toNat / granularity.toInt.toNat.max 1 :=
      Nat.le_of_lt_succ (Nat.lt_of_lt_of_le hi (Nat.min_le_left _ _))
    have hone : granularity.toInt.toNat.max 1 = granularity.toInt.toNat :=
      Nat.max_eq_left (by omega)
    rw [hone, Nat.le_div_iff_mul_le (by omega)] at hsteps
    have hcast : (i : Int) * granularity.toInt ≤ max.toInt - min.toInt := by
      have := Int.ofNat_le.mpr hsteps
      rwa [Int.natCast_mul, Int.toNat_of_nonneg (by omega), Int.toNat_of_nonneg (by omega)] at this
    omega

/-- The first point is the least number of the range. -/
theorem valueAt_zero {min max granularity : Int64}
    (hv : (long min max granularity).validate = .ok ()) :
    (long min max granularity).valueAt 0 = .long min := by
  obtain ⟨v, hvalue, hint⟩ := valueAt_long (validate_long.mp hv).2
    (hasPoint_of_lt hv (sampleCount_pos _))
  rw [hvalue, Int64.toInt_inj.mp (by simpa using hint : v.toInt = min.toInt)]

end Spec
end SynthData
