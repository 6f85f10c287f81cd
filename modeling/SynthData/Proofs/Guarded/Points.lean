import SynthData.Proofs.Grid.Points
import SynthData.Proofs.Guarded.Operations

/-!
# Counting and finding points in words

The number of points, the point at an index and the index below a number, as they
are computed in words.  On a valid range of whole numbers no step of them is
broken off, and they are what `Spec` says: the distance of two bounds and all of
its multiples that occur fit signed words of 128 bits, and a grid has a last
point because it has one.
-/
namespace SynthData
namespace Spec

/-- The number of points, cut at the largest number of 64 bits. -/
def guardedCount : Spec → Guarded Nat
  | long min max granularity => do
    let span ← Wide.sub max.toInt min.toInt
    let steps ← Word.div (Word.ofInt 128 span) (Max.max granularity.toInt 1).toNat
    let count ← Word.add 128 steps 1
    return Nat.min count maxWord
  | double min max granularity =>
    let steps := (max - min) / granularity + slack
    if wordLimit ≤ steps then return maxWord else Word.add 64 steps.toUInt64.toNat 1

/-- The point at an index. -/
def guardedValueAt (spec : Spec) (index : Nat) : Guarded Number :=
  match spec with
  | long min max granularity => do
    let offset ← Wide.mul index granularity.toInt
    let value ← Wide.add min.toInt offset
    return .long (Int64.ofInt (Min.min value max.toInt))
  | double min max granularity => return (double min max granularity).valueAt index

/-- The index of the point at or below a number. -/
def guardedFloorIndex (spec : Spec) (x : Float) : Guarded (Option Nat) :=
  let (min, max, granularity) := match spec with
    | long min max granularity =>
      (Number.nearest min, Number.nearest max, Number.nearest granularity)
    | double min max granularity => (min, max, granularity)
  if !x.isFinite || x < min || max < x then return none
  else do
    let index := ((x - min) / granularity + slack).toUInt64.toNat
    let count ← spec.guardedCount
    let last ← Word.sub count 1
    return some (Nat.min index last)

/-- A range of whole numbers. -/
def IsWhole (spec : Spec) : Prop :=
  ∃ min max granularity, spec = long min max granularity

section Long

variable {min max granularity : Int64}

/-- The points of whole numbers are counted in 64 bits. -/
theorem sampleCount_long_lt : (long min max granularity).sampleCount < 2 ^ 64 :=
  Nat.lt_of_le_of_lt (Nat.min_le_right _ _) (by decide)

theorem guardedCount_eq (hv : (long min max granularity).validate = .ok ()) :
    (long min max granularity).guardedCount = .ok (long min max granularity).sampleCount := by
  obtain ⟨hle, hg⟩ := validate_long.mp hv
  have hmin := min.le_toInt
  have hmax := max.toInt_lt
  have hspan : Wide.sub max.toInt min.toInt = .ok (max.toInt - min.toInt) :=
    Wide.fit_ok (by omega) (by omega)
  have hword : Word.ofInt 128 (max.toInt - min.toInt) = (max.toInt - min.toInt).toNat :=
    Word.ofInt_eq (by omega) (by omega)
  have hstep : (Max.max granularity.toInt 1).toNat = granularity.toInt.toNat.max 1 := by
    show _ = Max.max granularity.toInt.toNat 1
    omega
  have hsteps : (max.toInt - min.toInt).toNat / granularity.toInt.toNat.max 1 < 2 ^ 64 :=
    Nat.lt_of_le_of_lt (Nat.div_le_self _ _) (by omega)
  have hfits : (max.toInt - min.toInt).toNat / granularity.toInt.toNat.max 1 + 1 < 2 ^ 128 := by
    omega
  have hnonzero : granularity.toInt.toNat.max 1 ≠ 0 := by
    show Max.max granularity.toInt.toNat 1 ≠ 0
    omega
  simp only [guardedCount, hspan, hword, hstep, Guarded.ok_bind, Word.div_ok hnonzero,
    Word.add_ok hfits, Guarded.pure_eq]
  rfl

/-- Every index of 64 bits has a value, also beyond the last point. -/
theorem guardedValueAt_eq {i : Nat} (hi : i < 2 ^ 64) :
    (long min max granularity).guardedValueAt i = .ok ((long min max granularity).valueAt i) := by
  have hmin := min.le_toInt
  have hmin' := min.toInt_lt
  have hg := granularity.le_toInt
  have hg' := granularity.toInt_lt
  have hlow : -(i * 2 ^ 63) ≤ (i : Int) * granularity.toInt := by
    rw [← Int.mul_neg]
    exact Int.mul_le_mul_of_nonneg_left (by omega) (by omega)
  have hhigh : (i : Int) * granularity.toInt ≤ i * (2 ^ 63 - 1) :=
    Int.mul_le_mul_of_nonneg_left (by omega) (by omega)
  have hoffset : Wide.mul i granularity.toInt = .ok (i * granularity.toInt) :=
    Wide.fit_ok (by omega) (by omega)
  have hvalue : Wide.add min.toInt (i * granularity.toInt) =
      .ok (min.toInt + i * granularity.toInt) := Wide.fit_ok (by omega) (by omega)
  simp only [guardedValueAt, hoffset, hvalue, Guarded.ok_bind, Guarded.pure_eq]
  rfl

theorem guardedFloorIndex_eq (hv : (long min max granularity).validate = .ok ()) (x : Float) :
    (long min max granularity).guardedFloorIndex x =
      .ok ((long min max granularity).floorIndex? x) := by
  simp only [guardedFloorIndex, floorIndex?, guardedCount_eq hv, Guarded.ok_bind,
    Word.sub_ok (sampleCount_pos _), Guarded.pure_eq]
  split
  · rfl
  · rfl

/-- The index of a point has 64 bits. -/
theorem lt_of_hasPoint (hv : (long min max granularity).validate = .ok ()) {i : Nat}
    (hi : (long min max granularity).HasPoint i) : i < 2 ^ 64 := by
  obtain ⟨-, hg⟩ := validate_long.mp hv
  have hmin := min.le_toInt
  have hmax := max.toInt_lt
  have hi : min.toInt + i * granularity.toInt ≤ max.toInt := hi
  have hmul : (i : Int) * 1 ≤ i * granularity.toInt :=
    Int.mul_le_mul_of_nonneg_left (by omega) (by omega)
  omega

end Long

end Spec
end SynthData
