import SynthData.Proofs.Double.Integers
import SynthData.Proofs.Grid.Points

/-!
# The index below a number

The index of the point at or below a number is calculated with doubles: the distance from the least
number is divided by the granularity, a little is added, and the fraction is lost
(`floorIndex?_long`).  Every step of this is rounded.
-/
namespace SynthData

open Binary64 (Reads rounded limit rounded_mono rounded_intCast)

theorem reads_lesser {a b : Float} {x y : ℚ} (ha : Reads a x) (hb : Reads b y) :
    Reads (lesser a b) (min x y) := by
  rw [lesser, hb.isNaN, if_neg Bool.false_ne_true]
  split
  · next hlt => rwa [min_eq_left ((ha.lt_iff hb).mp hlt).le]
  · next hnot => rwa [min_eq_right (not_lt.mp ((ha.lt_iff hb).not.mp hnot))]

theorem reads_greater {a b : Float} {x y : ℚ} (ha : Reads a x) (hb : Reads b y) :
    Reads (greater a b) (max x y) := by
  rw [greater, hb.isNaN, if_neg Bool.false_ne_true]
  split
  · next hlt => rwa [max_eq_left ((hb.lt_iff ha).mp hlt).le]
  · next hnot => rwa [max_eq_right (not_lt.mp ((hb.lt_iff ha).not.mp hnot))]

/-- A number of 64 bits is not too large for a double. -/
theorem abs_rounded_lt_limit {q : ℚ} (h : |q| ≤ 2 ^ 64) : |rounded q| < limit := by
  have hbound : rounded (2 ^ 64) = 2 ^ 64 := (Binary64.hasBits_two_pow 64).rounded
  have hupper := rounded_mono (abs_le.mp h).2
  have hlower := rounded_mono (abs_le.mp h).1
  rw [Binary64.rounded_neg, hbound] at hlower
  rw [hbound] at hupper
  calc |rounded q| ≤ 2 ^ (64 : ℤ) := by exact_mod_cast abs_le.mpr ⟨hlower, hupper⟩
    _ < limit := zpow_lt_zpow_right₀ (by norm_num) (by norm_num)

theorem reads_nearest (v : Int64) : Reads (Number.nearest v) (rounded v.toInt) := by
  have hle := v.le_toInt
  have hlt := v.toInt_lt
  refine Binary64.reads_ofInt (abs_rounded_lt_limit ?_)
  exact_mod_cast abs_le.mpr ⟨by omega, by omega⟩

/-- A word becomes the nearest double. -/
theorem reads_word (w : UInt64) : Reads w.toFloat (rounded w.toNat) := by
  refine Binary64.reads_ofInt (n := w.toNat) (abs_rounded_lt_limit ?_)
  rw [Int.cast_natCast, Nat.abs_cast]
  exact_mod_cast w.toNat_lt.le

/-- A whole number of 53 bits is kept by its double. -/
theorem reads_nearest_of_le {v : Int64} (h : |v.toInt| ≤ 2 ^ 53) :
    Reads (Number.nearest v) v.toInt := by
  have hreads := reads_nearest v
  rwa [rounded_intCast h] at hreads

namespace Spec

/-- What is added to a quotient: the double nearest to a billionth. -/
def tolerance : ℚ := rounded (1 / 10 ^ 9)

theorem tolerance_nonneg : 0 ≤ tolerance :=
  Binary64.rounded_nonneg (by norm_num)

theorem tolerance_le : tolerance ≤ 1 / 4 := by
  have hquarter : Binary64.HasBits (1 / 4) := ⟨1, -2, by norm_num, by norm_num, by norm_num⟩
  have hle : rounded (1 / 10 ^ 9) ≤ rounded (1 / 4) := rounded_mono (by norm_num)
  rwa [hquarter.rounded] at hle

theorem reads_billion : Reads 1000000000 (10 ^ 9) :=
  Binary64.reads_of_unpack (m := 10 ^ 9 * 2 ^ 23) (e := -23) rfl (by norm_num)

theorem reads_slack : Reads slack tolerance := by
  have hquotient : slack = 1 / 1000000000 := rfl
  rw [hquotient]
  exact Binary64.reads_one.div reads_billion (by norm_num)
    (abs_rounded_lt_limit (by rw [abs_of_nonneg] <;> norm_num))

/-! ## The quotient -/

/-- The quotient that loses its fraction, as it is calculated. -/
def quotient (min granularity : ℤ) (x : ℚ) : ℚ :=
  rounded (rounded (rounded (x - min) / rounded granularity) + tolerance)

section Quotient

variable {min granularity : ℤ} {x : ℚ}

theorem one_le_rounded (hg : 0 < granularity) : 1 ≤ rounded granularity := by
  have hle : rounded ((1 : ℤ) : ℚ) ≤ rounded granularity := rounded_mono (by exact_mod_cast hg)
  rw [rounded_intCast (by norm_num)] at hle
  exact_mod_cast hle

/-- A distance of 54 bits, and what becomes of it on the way. -/
theorem distance_mem (hx : min ≤ x) (hle : x - min ≤ 2 ^ 54) :
    0 ≤ rounded (x - min) ∧ rounded (x - min) ≤ 2 ^ 54 := by
  refine ⟨Binary64.rounded_nonneg (sub_nonneg.mpr hx), ?_⟩
  rw [← (Binary64.hasBits_two_pow 54).rounded]
  exact rounded_mono hle

theorem division_mem (hg : 0 < granularity) (hx : min ≤ x) (hle : x - min ≤ 2 ^ 54) :
    0 ≤ rounded (x - min) / rounded granularity ∧
      rounded (x - min) / rounded granularity ≤ 2 ^ 54 := by
  obtain ⟨hnonneg, hbound⟩ := distance_mem hx hle
  have hone := one_le_rounded hg
  exact ⟨div_nonneg hnonneg (zero_le_one.trans hone), (div_le_self hnonneg hone).trans hbound⟩

theorem sum_mem (hg : 0 < granularity) (hx : min ≤ x) (hle : x - min ≤ 2 ^ 54) :
    0 ≤ rounded (rounded (x - min) / rounded granularity) + tolerance ∧
      rounded (rounded (x - min) / rounded granularity) + tolerance ≤ 2 ^ 55 := by
  obtain ⟨hnonneg, hbound⟩ := division_mem hg hx hle
  have hrounded := rounded_mono hbound
  rw [(Binary64.hasBits_two_pow 54).rounded] at hrounded
  have hlow := tolerance_nonneg
  have hhigh := tolerance_le
  exact ⟨add_nonneg (Binary64.rounded_nonneg hnonneg) hlow, by linarith⟩

theorem quotient_mem (hg : 0 < granularity) (hx : min ≤ x) (hle : x - min ≤ 2 ^ 54) :
    0 ≤ quotient min granularity x ∧ quotient min granularity x ≤ 2 ^ 55 := by
  obtain ⟨hnonneg, hbound⟩ := sum_mem hg hx hle
  refine ⟨Binary64.rounded_nonneg hnonneg, ?_⟩
  rw [← (Binary64.hasBits_two_pow 55).rounded]
  exact rounded_mono hbound

/-- What is added does not lessen a quotient. -/
theorem division_le_quotient : rounded (rounded (x - min) / rounded granularity) ≤
    quotient min granularity x := by
  have hle := rounded_mono (le_add_of_nonneg_right (a := rounded (rounded (x - min) /
    rounded granularity)) tolerance_nonneg)
  rwa [(Binary64.hasBits_rounded _).rounded] at hle

/-- **The quotient of a number above a point is no less than the index of the point**, although
every operation is rounded. -/
theorem le_quotient_of_lt {n : ℤ} (hn : 0 < n) (hg : 0 < granularity)
    (hbits : n * granularity ≤ 2 ^ 54) (h : min + n * granularity < x) :
    n ≤ quotient min granularity x := by
  refine le_trans ?_ division_le_quotient
  have hone := one_le_rounded hg
  have hdistance : ((n * granularity : ℤ) : ℚ) < x - min := by
    push_cast
    linarith
  have hle := Binary64.le_rounded_of_lt (mul_nonneg hn.le hg.le) hbits hdistance
  rcases (show n = 1 ∨ 2 ≤ n by omega) with rfl | htwo
  · -- a granularity of more bits is rounded as the distance is
    rw [one_mul] at hdistance
    have hdivision : (1 : ℤ) ≤ rounded (x - min) / rounded granularity := by
      rw [Int.cast_one, one_le_div (by linarith)]
      exact rounded_mono hdistance.le
    have hmono := rounded_mono hdivision
    rwa [rounded_intCast (by norm_num)] at hmono
  · have hsmall : granularity ≤ 2 ^ 53 := by nlinarith
    rw [rounded_intCast (by rwa [abs_of_pos hg])]
    have hdivision : (n : ℚ) ≤ rounded (x - min) / granularity := by
      rw [le_div_iff₀ (by exact_mod_cast hg)]
      exact_mod_cast hle
    rcases le_or_gt n (2 ^ 53) with hfew | hmany
    · have hmono := rounded_mono hdivision
      rwa [rounded_intCast (by rwa [abs_of_pos hn])] at hmono
    · -- so many points are at a distance of one, and nothing is divided
      obtain rfl : granularity = 1 := by nlinarith
      rw [Int.cast_one, div_one] at hdivision ⊢
      rwa [(Binary64.hasBits_rounded _).rounded]

end Quotient

/-! ## The index -/

section Long

variable {min max granularity : Int64} (hmin : |min.toInt| ≤ 2 ^ 53) (hmax : |max.toInt| ≤ 2 ^ 53)

include hmin hmax

/-- Numbers of a range of 53 bits are at most twice as far apart. -/
theorem distance_le {x : ℚ} (hx : x ≤ max.toInt) : x - min.toInt ≤ 2 ^ 54 := by
  have hlow : -(2 ^ 53 : ℚ) ≤ min.toInt := by exact_mod_cast (abs_le.mp hmin).1
  have hhigh : (max.toInt : ℚ) ≤ 2 ^ 53 := by exact_mod_cast (abs_le.mp hmax).2
  linarith

/-- **The index below a number** of the range is the quotient without its fraction, but not beyond
the last point.  Other numbers have none. -/
theorem floorIndex?_long (hv : (long min max granularity).validate = .ok ()) {a : Float} {x : ℚ}
    (hx : Reads a x) :
    (long min max granularity).floorIndex? a = if (min.toInt : ℚ) ≤ x ∧ x ≤ max.toInt then
      some (Min.min ⌊quotient min.toInt granularity.toInt x⌋₊
        ((long min max granularity).sampleCount - 1))
    else none := by
  obtain ⟨-, hg⟩ := validate_long.mp hv
  have hfinite : a.isFinite = true := Binary64.isFinite_iff.mpr ⟨x, hx⟩
  have hlow := hx.lt_iff (reads_nearest_of_le hmin)
  have hhigh := (reads_nearest_of_le hmax).lt_iff hx
  unfold floorIndex?
  dsimp only
  by_cases hmem : (min.toInt : ℚ) ≤ x ∧ x ≤ max.toInt
  · rw [if_pos hmem, if_neg (by simp [hfinite, hlow, hhigh, hmem.1, hmem.2])]
    obtain ⟨hle, hge⟩ := hmem
    have hdistance := distance_le hmin hmax hge
    have hone := one_le_rounded hg
    have hsub := hx.sub (reads_nearest_of_le hmin) (abs_rounded_lt_limit (q := x - min.toInt)
      (by rw [abs_of_nonneg (sub_nonneg.mpr hle)]; exact hdistance.trans (by norm_num)))
    obtain ⟨hnonneg, hbound⟩ := division_mem hg hle hdistance
    have hdiv := hsub.div (reads_nearest granularity) (by linarith)
      (abs_rounded_lt_limit (by rw [abs_of_nonneg hnonneg]; exact hbound.trans (by norm_num)))
    obtain ⟨hnonneg', hbound'⟩ := sum_mem hg hle hdistance
    have hadd := hdiv.add reads_slack
      (abs_rounded_lt_limit (by rw [abs_of_nonneg hnonneg']; exact hbound'.trans (by norm_num)))
    obtain ⟨hquotient, hquotient'⟩ := quotient_mem hg hle hdistance
    rw [hadd.toUInt64 hquotient (hquotient'.trans_lt (by norm_num))]
    rfl
  · rw [if_neg hmem, if_pos]
    rw [not_and_or, not_le, not_le, ← hlow, ← hhigh] at hmem
    simpa [hfinite] using hmem

end Long

end Spec
end SynthData
