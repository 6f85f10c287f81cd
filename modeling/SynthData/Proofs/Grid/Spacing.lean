import SynthData.Proofs.Grid.Floor

/-!
# Points of doubles

The point with an index is calculated with doubles: the index is multiplied by the granularity, the
product is added to the least number, and the upper bound is not passed.  Every step of this is
rounded, and what is too large leads to the upper bound (`Spec.point`, `Spec.reads_valueAt`).  How
many points there are is calculated with doubles as well (`Spec.steps`, `Spec.sampleCount_double`).

So a larger index has no lesser point, but it may have the same one (`Spec.point_mono`).  Points are
apart if each but the last one is less than the next one (`Spec.Apart`), which is what it takes that
they increase and that no index repeats the point of another one (`Spec.increasing_iff`,
`Spec.unrepeating_iff`).  A granularity of sixteen times the spacing of the doubles at the larger
bound keeps points apart (`Spec.apart_of_coarse`); indices of more than 53 bits are never kept apart
(`Spec.point_merged`).
-/
namespace SynthData

open Binary64 (Reads Infinite rounded limit step rounded_mono rounded_intCast)

/-- A double that is stored by its bits is read back. -/
theorem Double.toFloat_ofFloat (a : Float) : (Double.ofFloat a).toFloat = a := Float.ofBits_toBits a

theorem lesser_infinite {a b : Float} {y : ℚ} (ha : Infinite a) (hb : Reads b y) :
    lesser a b = b := by
  rw [lesser, hb.isNaN, if_neg Bool.false_ne_true, if_neg (ha.not_lt hb)]

namespace Spec

/-! ## The points -/

/-- The distance of a point from the least one, as it is calculated. -/
def offset (d : ℚ) (i : ℕ) : ℚ := rounded (rounded i * d)

/-- The point, as it is calculated.  An offset that is too large leads to the upper bound. -/
def point (x y d : ℚ) (i : ℕ) : ℚ :=
  if offset d i < limit then Min.min (rounded (x + offset d i)) y else y

variable {min max granularity : Float} {x y d : ℚ}

/-- A valid range of doubles has its bounds in order and a granularity that leads upwards. -/
theorem validate_double (hx : Reads min x) (hy : Reads max y) (hd : Reads granularity d) :
    (double min max granularity).validate = .ok () ↔ x ≤ y ∧ 0 < d := by
  have hmin : min.isFinite = true := Binary64.isFinite_iff.mpr ⟨x, hx⟩
  have hmax : max.isFinite = true := Binary64.isFinite_iff.mpr ⟨y, hy⟩
  have hgranularity : granularity.isFinite = true := Binary64.isFinite_iff.mpr ⟨d, hd⟩
  simp only [validate, hmin, hmax, hgranularity, hy.lt_iff hx, Binary64.reads_zero.lt_iff hd]
  by_cases horder : y < x
  · simp [horder]
  · by_cases hpos : 0 < d
    · simp [horder, hpos, not_lt.mp horder]
    · simp [horder, hpos]

/-- The bounds and the granularity of a valid range are numbers. -/
theorem exists_reads (hv : (double min max granularity).validate = .ok ()) :
    ∃ x y d, Reads min x ∧ Reads max y ∧ Reads granularity d := by
  simp only [validate] at hv
  split at hv
  · cases hv
  · next hfinite =>
    split at hv
    · cases hv
    · split at hv
      · cases hv
      · next hgranularity =>
        simp only [Bool.or_eq_true, Bool.not_eq_true', not_or, Bool.not_eq_false]
          at hfinite hgranularity
        obtain ⟨x, hx⟩ := Binary64.isFinite_iff.mp hfinite.1
        obtain ⟨y, hy⟩ := Binary64.isFinite_iff.mp hfinite.2
        obtain ⟨d, hd⟩ := Binary64.isFinite_iff.mp hgranularity.2
        exact ⟨x, y, d, hx, hy, hd⟩

/-- An index of 53 bits is kept by its double. -/
theorem offset_eq {i : ℕ} (hi : i ≤ 2 ^ 53) : offset d i = rounded (i * d) := by
  have hindex : rounded i = i := by
    exact_mod_cast rounded_intCast (n := i) (by rw [Nat.abs_cast]; exact_mod_cast hi)
  rw [offset, hindex]

theorem offset_nonneg (hd : 0 < d) (i : ℕ) : 0 ≤ offset d i :=
  Binary64.rounded_nonneg (mul_nonneg (Binary64.rounded_nonneg i.cast_nonneg) hd.le)

theorem offset_mono (hd : 0 < d) : Monotone (offset d) := by
  intro i j hij
  have hcast : (i : ℚ) ≤ j := by exact_mod_cast hij
  exact rounded_mono (mul_le_mul_of_nonneg_right (rounded_mono hcast) hd.le)

/-- **A larger index has no lesser point.** -/
theorem point_mono (x y : ℚ) (hd : 0 < d) : Monotone (point x y d) := by
  intro i j hij
  have hle := offset_mono hd hij
  unfold point
  by_cases hj : offset d j < limit
  · rw [if_pos (hle.trans_lt hj), if_pos hj]
    exact min_le_min_right y (rounded_mono (by linarith))
  · rw [if_neg hj]
    split
    · exact min_le_right _ _
    · exact le_rfl

/-- **The doubles are the points as they are calculated.** -/
theorem reads_valueAt (hx : Reads min x) (hy : Reads max y) (hd : Reads granularity d)
    (hpos : 0 < d) {i : ℕ} (hi : i < 2 ^ 64) :
    Reads ((double min max granularity).valueAt i).toFloat (point x y d i) := by
  have hword := reads_word (UInt64.ofNat i)
  rw [UInt64.toNat_ofNat_of_lt' hi] at hword
  have hnonneg := offset_nonneg hpos i
  show Reads (Double.ofFloat (lesser (min + (UInt64.ofNat i).toFloat * granularity) max)).toFloat _
  rw [Double.toFloat_ofFloat]
  unfold point
  by_cases hsmall : offset d i < limit
  · have habs : |offset d i| < limit := by rwa [abs_of_nonneg hnonneg]
    have hoffset : Reads ((UInt64.ofNat i).toFloat * granularity) (offset d i) :=
      hword.mul hd habs
    rw [if_pos hsmall]
    by_cases hsum : rounded (x + offset d i) < limit
    · -- the sum is no less than the least number, which is a double
      have hlow : x ≤ rounded (x + offset d i) := by
        have hmono := rounded_mono (le_add_of_nonneg_right (a := x) hnonneg)
        rwa [hx.rounded] at hmono
      have hbound := (abs_lt.mp hx.abs_lt_limit).1
      exact reads_lesser (hx.add hoffset (abs_lt.mpr ⟨by linarith, hsum⟩)) hy
    · have hinfinite := hx.infinite_add hoffset (not_lt.mp hsum)
      have hmax := (hy.lt_limit.trans_le (not_lt.mp hsum)).le
      rwa [lesser_infinite hinfinite hy, min_eq_right hmax]
  · have hinfinite := hx.add_infinite (hword.infinite_mul hd (not_lt.mp hsmall))
    rwa [if_neg hsmall, lesser_infinite hinfinite hy]

/-! ## The number of points -/

/-- How many steps lead from the least number to the upper bound, as it is calculated. -/
def steps (x y d : ℚ) : ℚ := rounded (rounded (rounded (y - x) / d) + tolerance)

theorem reads_wordLimit : Reads wordLimit (2 ^ 64) :=
  Binary64.reads_of_unpack (m := 2 ^ 52) (e := 12) rfl (by norm_num)

theorem division_nonneg (horder : x ≤ y) (hpos : 0 < d) : 0 ≤ rounded (y - x) / d :=
  div_nonneg (Binary64.rounded_nonneg (sub_nonneg.mpr horder)) hpos.le

theorem steps_nonneg (horder : x ≤ y) (hpos : 0 < d) : 0 ≤ steps x y d :=
  Binary64.rounded_nonneg
    (add_nonneg (Binary64.rounded_nonneg (division_nonneg horder hpos)) tolerance_nonneg)

/-- The quotient of the distance of the bounds by the granularity, with what is added to it. -/
theorem reads_steps (hx : Reads min x) (hy : Reads max y) (hd : Reads granularity d)
    (horder : x ≤ y) (hpos : 0 < d) :
    if rounded (y - x) < limit ∧ rounded (rounded (y - x) / d) < limit ∧ steps x y d < limit then
      Reads ((max - min) / granularity + slack) (steps x y d)
    else Infinite ((max - min) / granularity + slack) := by
  have hdistance : 0 ≤ rounded (y - x) := Binary64.rounded_nonneg (sub_nonneg.mpr horder)
  have hdivision := Binary64.rounded_nonneg (division_nonneg horder hpos)
  have hsteps := steps_nonneg horder hpos
  by_cases hfar : rounded (y - x) < limit
  · have hsub := hy.sub hx (by rwa [abs_of_nonneg hdistance])
    by_cases hfine : rounded (rounded (y - x) / d) < limit
    · have hdiv := hsub.div hd hpos.ne' (by rwa [abs_of_nonneg hdivision])
      by_cases hmany : steps x y d < limit
      · rw [if_pos ⟨hfar, hfine, hmany⟩]
        exact hdiv.add reads_slack (by rwa [← steps, abs_of_nonneg hsteps])
      · rw [if_neg fun h => hmany h.2.2]
        exact hdiv.infinite_add reads_slack (not_lt.mp hmany)
    · rw [if_neg fun h => hfine h.2.1]
      exact (hsub.infinite_div hd hpos.ne' (not_lt.mp hfine)).add reads_slack
  · rw [if_neg fun h => hfar h.1]
    exact ((hy.infinite_sub hx (not_lt.mp hfar)).div hd hpos).add reads_slack

/-- **The number of points** is one more than the number of steps without its fraction.  If a result
on the way is too large for a double, or the steps are too many for a word, then it is the largest
word. -/
theorem sampleCount_double (hx : Reads min x) (hy : Reads max y) (hd : Reads granularity d)
    (horder : x ≤ y) (hpos : 0 < d) :
    (double min max granularity).sampleCount =
      if rounded (y - x) < limit ∧ rounded (rounded (y - x) / d) < limit ∧ steps x y d < 2 ^ 64 then
        ⌊steps x y d⌋₊ + 1
      else maxWord := by
  have hreads := reads_steps hx hy hd horder hpos
  have hnonneg := steps_nonneg horder hpos
  have hword : (2 : ℚ) ^ 64 < limit := by
    rw [limit, ← zpow_natCast]
    exact zpow_lt_zpow_right₀ (by norm_num) (by norm_num)
  unfold sampleCount
  dsimp only
  split at hreads
  · next hfinite =>
    obtain ⟨hfar, hfine, -⟩ := hfinite
    by_cases hfew : steps x y d < 2 ^ 64
    · rw [if_neg ((reads_wordLimit.le_iff hreads).not.mpr (not_le.mpr hfew)),
        if_pos ⟨hfar, hfine, hfew⟩, hreads.toUInt64 hnonneg hfew]
    · rw [if_pos ((reads_wordLimit.le_iff hreads).mpr (not_lt.mp hfew)),
        if_neg fun h => hfew h.2.2]
  · next hinfinite =>
    rw [if_pos (reads_wordLimit.le_infinite hreads), if_neg]
    intro h
    exact hinfinite ⟨h.1, h.2.1, h.2.2.trans hword⟩

/-! ## Points that are kept apart -/

/-- The distance of the doubles at the bound that is farther from zero. -/
def spacing (x y : ℚ) : ℚ := 2 ^ step (Max.max |x| |y|)

theorem spacing_pos (x y : ℚ) : 0 < spacing x y := Binary64.two_zpow_pos _

theorem abs_le_of_mem {q : ℚ} (hlow : x ≤ q) (hhigh : q ≤ y) :
    |q| ≤ 2 ^ (step (Max.max |x| |y|) + 53) := by
  refine (abs_le_max_abs_abs hlow hhigh).trans ?_
  rcases (abs_nonneg x |>.trans (le_max_left |x| |y|)).eq_or_lt with hzero | hpos
  · rw [← hzero]
    exact (Binary64.two_zpow_pos _).le
  · exact (Binary64.lt_of_step hpos).le

/-- A number between the bounds is moved by half of the spacing at most. -/
theorem abs_rounded_sub_le_of_mem {q : ℚ} (hlow : x ≤ q) (hhigh : q ≤ y) :
    |rounded q - q| ≤ spacing x y / 2 :=
  Binary64.abs_rounded_sub_le (Binary64.le_step _) (abs_le_of_mem hlow hhigh)

theorem distance_le_spacing (horder : x ≤ y) : y - x ≤ 2 ^ 54 * spacing x y := by
  have hx := (abs_le.mp (abs_le_of_mem le_rfl horder)).1
  have hy := (abs_le.mp (abs_le_of_mem horder le_rfl)).2
  rw [zpow_add₀ (by norm_num), ← spacing] at hx hy
  linarith

/-- A distance between numbers of the range is moved by the spacing at most. -/
theorem abs_rounded_sub_le_of_distance {q : ℚ} (horder : x ≤ y) (hnonneg : 0 ≤ q)
    (hle : q ≤ y - x) : |rounded q - q| ≤ spacing x y := by
  have hbound : |q| ≤ 2 ^ (step (Max.max |x| |y|) + 1 + 53) := by
    rw [abs_of_nonneg hnonneg, add_assoc, zpow_add₀ (by norm_num), mul_comm]
    exact hle.trans (distance_le_spacing horder)
  have hmoved := Binary64.abs_rounded_sub_le (by have := Binary64.le_step (Max.max |x| |y|); omega)
    hbound
  rwa [zpow_add_one₀ (by norm_num), ← spacing, mul_div_cancel_right₀ _ (by norm_num)] at hmoved

theorem rounded_distance_le (horder : x ≤ y) : rounded (y - x) ≤ 2 ^ 54 * spacing x y := by
  have hbits : Binary64.HasBits (2 ^ 54 * spacing x y) := by
    refine ⟨1, 54 + step (Max.max |x| |y|), by norm_num, ?_, ?_⟩
    · have := Binary64.le_step (Max.max |x| |y|)
      omega
    · rw [Int.cast_one, one_mul, zpow_add₀ (by norm_num), spacing]
      norm_num
  have hle := rounded_mono (distance_le_spacing horder)
  rwa [hbits.rounded] at hle

/-- Numbers of 51 bits are not moved far. -/
theorem rounded_le_add_eighth {q : ℚ} (hnonneg : 0 ≤ q) (hle : q ≤ 2 ^ 51) :
    rounded q ≤ q + 1 / 8 := by
  have hmoved := Binary64.abs_rounded_sub_le (t := -2) (q := q) (by norm_num)
    (by rw [abs_of_nonneg hnonneg]; exact_mod_cast hle)
  have hupper := (abs_le.mp hmoved).2
  norm_num at hupper
  linarith

section Coarse

variable (horder : x ≤ y) (hcoarse : 16 * spacing x y ≤ d)

include horder hcoarse

/-- Steps that are much larger than the spacing are not too many for a word. -/
theorem division_le : rounded (y - x) / d ≤ 2 ^ 50 := by
  have hspacing := spacing_pos x y
  rw [div_le_iff₀ (by linarith)]
  calc rounded (y - x) ≤ 2 ^ 54 * spacing x y := rounded_distance_le horder
    _ = 2 ^ 50 * (16 * spacing x y) := by ring
    _ ≤ 2 ^ 50 * d := by linarith

/-- What the quotient is, and what it is with the tolerance. -/
theorem quotients_le : rounded (rounded (y - x) / d) ≤ 2 ^ 50 ∧ steps x y d ≤ 2 ^ 51 := by
  have hdivision := rounded_mono (division_le horder hcoarse)
  rw [(Binary64.hasBits_two_pow 50).rounded] at hdivision
  refine ⟨hdivision, ?_⟩
  rw [← (Binary64.hasBits_two_pow 51).rounded]
  have htolerance := tolerance_le
  exact rounded_mono (by linarith)

/-- **The steps are not too many**: rounding and what is added make up for a little more than the
half of a step. -/
theorem steps_mul_le : steps x y d * d ≤ y - x + 9 / 16 * d := by
  have hspacing := spacing_pos x y
  have hpos : 0 < d := by linarith
  have hdistance := abs_rounded_sub_le_of_distance horder (sub_nonneg.mpr horder) le_rfl
  have hdivision : rounded (y - x) / d ≤ (y - x) / d + 1 / 16 := by
    rw [div_add' _ _ _ hpos.ne']
    refine div_le_div_of_nonneg_right ?_ hpos.le
    linarith [(abs_le.mp hdistance).2]
  have hnonneg := division_nonneg horder hpos
  have hrounded := rounded_le_add_eighth hnonneg ((division_le horder hcoarse).trans (by norm_num))
  have hle := (quotients_le horder hcoarse).1
  have htolerance := tolerance_le
  have hsum : steps x y d ≤ _ := rounded_le_add_eighth
    (add_nonneg (Binary64.rounded_nonneg hnonneg) tolerance_nonneg) (by norm_num at hle ⊢; linarith)
  have hsteps : steps x y d ≤ (y - x) / d + 9 / 16 := by linarith
  calc steps x y d * d ≤ ((y - x) / d + 9 / 16) * d := mul_le_mul_of_nonneg_right hsteps hpos.le
    _ = y - x + 9 / 16 * d := by rw [add_mul, div_mul_cancel₀ _ hpos.ne']

section Room

variable {i : ℕ} (hi : i + 1 ≤ 2 ^ 53) (hroom : i * d + 7 / 16 * d ≤ y - x)

include hi hroom

/-- A point is at most one and a half of the spacing too large. -/
theorem point_le (hfar : rounded (y - x) < limit) :
    point x y d i ≤ x + i * d + 3 / 2 * spacing x y := by
  have hspacing := spacing_pos x y
  have hpos : 0 < d := by linarith
  have hdone : 0 ≤ (i : ℚ) * d := mul_nonneg i.cast_nonneg hpos.le
  have hoffset := abs_rounded_sub_le_of_distance horder hdone (by linarith)
  have hnonneg := offset_nonneg hpos i
  have hsmall : offset d i < limit := by
    rw [offset_eq (by omega)]
    exact (rounded_mono (by linarith)).trans_lt hfar
  rw [point, if_pos hsmall, offset_eq (by omega)]
  rw [offset_eq (by omega)] at hnonneg
  refine (min_le_left _ _).trans ?_
  have hsum := abs_rounded_sub_le_of_mem (x := x) (y := y) (q := x + rounded (i * d))
    (by linarith) (by linarith [(abs_le.mp hoffset).2])
  linarith [(abs_le.mp hoffset).2, (abs_le.mp hsum).2]

/-- The next point is at most as much too small, if it is not the upper bound. -/
theorem lt_point_succ : x + i * d + 3 / 2 * spacing x y < point x y d (i + 1) := by
  have hspacing := spacing_pos x y
  have hpos : 0 < d := by linarith
  have hdone : 0 ≤ (i : ℚ) * d := mul_nonneg i.cast_nonneg hpos.le
  unfold point
  split
  · refine lt_min ?_ (by linarith)
    have hoffset := abs_rounded_sub_le_of_distance (q := i * d + 7 / 16 * d) horder (by linarith)
      hroom
    have hmono : rounded (i * d + 7 / 16 * d) ≤ offset d (i + 1) := by
      rw [offset_eq hi]
      refine rounded_mono ?_
      push_cast
      linarith
    have hsum := abs_rounded_sub_le_of_mem (x := x) (y := y)
      (q := x + (i * d + 7 / 16 * d - spacing x y)) (by linarith) (by linarith)
    have hle : rounded (x + (i * d + 7 / 16 * d - spacing x y)) ≤
        rounded (x + offset d (i + 1)) :=
      rounded_mono (by linarith [(abs_le.mp hoffset).1])
    linarith [(abs_le.mp hsum).1]
  · linarith

end Room

end Coarse

/-! ## Points that are not kept apart -/

/-- The first integer that is not a double goes to the one before it. -/
theorem rounded_two_pow_succ : rounded (2 ^ 53 + 1) = 2 ^ 53 := by
  have hlog : Int.log 2 (2 ^ 53 + 1 : ℚ) = 53 :=
    Binary64.log_eq (by norm_num) (by norm_num)
  have hstep : step (2 ^ 53 + 1) = 1 := by
    rw [step, abs_of_pos (by norm_num), hlog]
    rfl
  have hfloor : ⌊((2 ^ 53 + 1) / 2 : ℚ)⌋ = 2 ^ 52 :=
    Int.floor_eq_iff.mpr ⟨by norm_num, by norm_num⟩
  have hnearest : Binary64.nearestEven ((2 ^ 53 + 1) / 2) = 2 ^ 52 := by
    rw [Binary64.nearestEven, Int.fract, hfloor, if_neg (by norm_num), if_neg (by norm_num)]
    norm_num
  rw [rounded, hstep, zpow_one, hnearest]
  norm_num

/-- **Indices of more than 53 bits are not told apart.** -/
theorem point_merged (x y d : ℚ) : point x y d (2 ^ 53 + 1) = point x y d (2 ^ 53) := by
  have hoffset : offset d (2 ^ 53 + 1) = offset d (2 ^ 53) := by
    have hindex : rounded ((2 ^ 53 + 1 : ℕ) : ℚ) = rounded ((2 ^ 53 : ℕ) : ℚ) := by
      rw [Nat.cast_add, Nat.cast_pow, Nat.cast_ofNat, Nat.cast_one, rounded_two_pow_succ,
        (Binary64.hasBits_two_pow 53).rounded]
    rw [offset, offset, hindex]
  rw [point, point, hoffset]

/-! ## Ranges -/

/-- Every point but the last one is less than the next one. -/
def Apart (x y d : ℚ) (count : ℕ) : Prop :=
  ∀ i, i + 1 < count → point x y d i < point x y d (i + 1)

/-- Neighbours that are apart keep all points apart. -/
theorem Apart.lt {count i j : ℕ} (h : Apart x y d count) (hpos : 0 < d) (hij : i < j)
    (hj : j < count) : point x y d i < point x y d j :=
  (h i (lt_of_le_of_lt hij hj)).trans_le (point_mono x y hpos hij)

/-- Points that are apart have different indices. -/
theorem Apart.inj {count i j : ℕ} (h : Apart x y d count) (hpos : 0 < d) (hi : i < count)
    (hj : j < count) (heq : point x y d i = point x y d j) : i = j := by
  rcases lt_trichotomy i j with hlt | rfl | hgt
  · exact absurd heq (h.lt hpos hlt hj).ne
  · rfl
  · exact absurd heq (h.lt hpos hgt hi).ne'

theorem Apart.count_le {count : ℕ} (h : Apart x y d count) : count ≤ 2 ^ 53 + 1 := by
  by_contra hmany
  exact (h (2 ^ 53) (not_le.mp hmany)).ne (point_merged x y d).symm

theorem sampleCount_le (min max granularity : Float) :
    (double min max granularity).sampleCount ≤ 2 ^ 64 := by
  unfold sampleCount
  dsimp only
  split
  · decide
  · exact UInt64.toNat_lt _

/-- **Points are apart if the granularity is sixteen times the spacing of the doubles.** -/
theorem apart_of_coarse (hx : Reads min x) (hy : Reads max y) (hd : Reads granularity d)
    (horder : x ≤ y) (hcoarse : 16 * spacing x y ≤ d) (hfar : rounded (y - x) < limit) :
    Apart x y d (double min max granularity).sampleCount := by
  have hspacing := spacing_pos x y
  have hpos : 0 < d := by linarith
  obtain ⟨hdivision, hsteps⟩ := quotients_le horder hcoarse
  have hcount : (double min max granularity).sampleCount = ⌊steps x y d⌋₊ + 1 := by
    rw [sampleCount_double hx hy hd horder hpos, if_pos]
    refine ⟨hfar, hdivision.trans_lt ?_, hsteps.trans_lt (by norm_num)⟩
    rw [limit, ← zpow_natCast]
    exact zpow_lt_zpow_right₀ (by norm_num) (by norm_num)
  intro i hi
  rw [hcount, Nat.add_lt_add_iff_right, ← Nat.succ_le_iff,
    Nat.le_floor_iff (steps_nonneg horder hpos)] at hi
  have hbits : i + 1 ≤ 2 ^ 53 := by
    have hle : ((i + 1 : ℕ) : ℚ) ≤ (2 ^ 51 : ℕ) := by
      push_cast at hi ⊢
      linarith
    exact (Nat.cast_le.mp hle).trans (by norm_num)
  -- an index that is not the last one leaves almost the half of a step to the upper bound
  have hroom : i * d + 7 / 16 * d ≤ y - x := by
    have hmul := steps_mul_le horder hcoarse
    have hsucc := mul_le_mul_of_nonneg_right hi hpos.le
    push_cast at hsucc
    linarith
  exact (point_le horder hcoarse hbits hroom hfar).trans_lt
    (lt_point_succ horder hcoarse hbits hroom)

/-- Points get larger with their indices. -/
def Increasing (spec : Spec) : Prop :=
  ∀ i j, i < j → j < spec.sampleCount → (spec.valueAt i).toFloat < (spec.valueAt j).toFloat

/-- Indices that are not repeated have points that are not repeated. -/
def Unrepeating (spec : Spec) : Prop :=
  ∀ indices : List ℕ, indices.Nodup → (∀ i ∈ indices, i < spec.sampleCount) →
    (indices.map spec.valueAt).Pairwise fun n m => n.equals m = false

section Ranges

variable (hx : Reads min x) (hy : Reads max y) (hd : Reads granularity d) (hpos : 0 < d)

include hx hy hd hpos

theorem reads_of_lt {i : ℕ} (hi : i < (double min max granularity).sampleCount) :
    Reads ((double min max granularity).valueAt i).toFloat (point x y d i) :=
  reads_valueAt hx hy hd hpos (hi.trans_le (sampleCount_le _ _ _))

/-- Points that are equal are the same as they are calculated. -/
theorem equals_iff {i j : ℕ} (hi : i < (double min max granularity).sampleCount)
    (hj : j < (double min max granularity).sampleCount) :
    ((double min max granularity).valueAt i).equals ((double min max granularity).valueAt j) =
      true ↔ point x y d i = point x y d j :=
  (reads_of_lt hx hy hd hpos hi).beq_iff (reads_of_lt hx hy hd hpos hj)

theorem increasing_iff : (double min max granularity).Increasing ↔
    Apart x y d (double min max granularity).sampleCount := by
  constructor
  · intro h i hi
    have hlt := h i (i + 1) (lt_add_one i) hi
    exact ((reads_of_lt hx hy hd hpos ((lt_add_one i).trans hi)).lt_iff
      (reads_of_lt hx hy hd hpos hi)).mp hlt
  · intro h i j hij hj
    exact ((reads_of_lt hx hy hd hpos (hij.trans hj)).lt_iff
      (reads_of_lt hx hy hd hpos hj)).mpr (h.lt hpos hij hj)

theorem unrepeating_iff : (double min max granularity).Unrepeating ↔
    Apart x y d (double min max granularity).sampleCount := by
  constructor
  · intro h i hi
    -- two neighbours that are not apart would be repeated
    have hpair := h [i, i + 1] (by simp) (by
      intro j hj
      rcases List.mem_pair.mp hj with rfl | rfl
      · exact (lt_add_one _).trans hi
      · exact hi)
    have hdiffer := List.pairwise_pair.mp hpair
    refine (point_mono x y hpos (Nat.le_succ i)).lt_of_ne ?_
    intro heq
    rw [(equals_iff hx hy hd hpos ((lt_add_one i).trans hi) hi).mpr heq] at hdiffer
    cases hdiffer
  · intro h indices hnodup hlt
    refine List.pairwise_map.mpr (hnodup.imp_of_mem ?_)
    intro i j hi hj hne
    rw [Bool.eq_false_iff, Ne, equals_iff hx hy hd hpos (hlt i hi) (hlt j hj)]
    exact fun heq => hne (h.inj hpos (hlt i hi) (hlt j hj) heq)

/-- Points that are apart are different numbers. -/
theorem Apart.injective (h : Apart x y d (double min max granularity).sampleCount) :
    (double min max granularity).Injective := by
  intro i j hi hj heq
  have hreads := reads_of_lt hx hy hd hpos hj
  rw [← heq] at hreads
  exact h.inj hpos hi hj ((reads_of_lt hx hy hd hpos hi).unique hreads)

end Ranges

end Spec
end SynthData
