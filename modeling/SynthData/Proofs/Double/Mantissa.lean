import SynthData.Proofs.Double.Rounding

/-!
# Mantissas and what is left of them

A calculation on doubles leaves a mantissa with two more bits: the first one that
does not fit, and whether there is anything after it.  `Represents` says which
numbers such a mantissa stands for.  It is kept when the mantissa is shifted, and
contains all that is needed to round to the nearest number (`Represents.rounded`).
-/
namespace SynthData.Binary64

open Float.Model (UnpackedFloat Format totalExponent)
open Float.Model.UnpackedFloat

/-! ## Residual bits -/

/-- The numbers that a mantissa with its residual bits stands for. -/
def Represents (em : ExtendedMantissa) (x : ℚ) : Prop :=
  match em.roundBit, em.stickyBit with
  | false, false => x = em.mantissa
  | false, true => em.mantissa < x ∧ x < em.mantissa + 1 / 2
  | true, false => x = em.mantissa + 1 / 2
  | true, true => em.mantissa + 1 / 2 < x ∧ x < em.mantissa + 1

variable {em : ExtendedMantissa} {x : ℚ}

theorem Represents.bounds (h : Represents em x) : em.mantissa ≤ x ∧ x < em.mantissa + 1 := by
  obtain ⟨m, round, sticky⟩ := em
  cases round <;> cases sticky
  all_goals
    simp only [Represents] at h ⊢
    constructor <;> linarith

theorem Represents.floor (h : Represents em x) : ⌊x⌋ = (em.mantissa : ℤ) :=
  Int.floor_eq_iff.mpr (by simpa using h.bounds)

/-- A mantissa is rounded to the nearest integer. -/
theorem Represents.rounded (h : Represents em x) : (em.roundedMantissa : ℤ) = nearestEven x := by
  have hfract : Int.fract x = x - em.mantissa := by rw [Int.fract, h.floor, Int.cast_natCast]
  unfold nearestEven
  rw [hfract, h.floor]
  obtain ⟨m, round, sticky⟩ := em
  cases round <;> cases sticky
  all_goals
    simp only [Represents] at h
    simp only [ExtendedMantissa.roundedMantissa, ExtendedMantissa.accuracy,
      Accuracy.roundToNearestEven]
    split_ifs
    all_goals first | rfl | omega | linarith

theorem Represents.shiftRightOne (h : Represents em x) : Represents em.shiftRightOne (x / 2) := by
  obtain ⟨m, round, sticky⟩ := em
  have hhalf : (m : ℚ) = 2 * (m / 2 : ℕ) + (m % 2 : ℕ) := by
    exact_mod_cast (Nat.div_add_mod m 2).symm
  rcases Nat.mod_two_eq_zero_or_one m with hmod | hmod
  all_goals
    rw [hmod] at hhalf
    cases round <;> cases sticky
    all_goals
      simp only [Represents, ExtendedMantissa.shiftRightOne, hmod] at h ⊢
      simp at hhalf ⊢
      first | linarith | (constructor <;> linarith)

theorem Represents.shiftRight (h : Represents em x) (n : ℕ) :
    Represents (em >>> n) (x / 2 ^ n) := by
  show Represents (n.repeat ExtendedMantissa.shiftRightOne em) (x / 2 ^ n)
  induction n with
  | zero =>
    rw [pow_zero, div_one]
    exact h
  | succ n ih =>
    rw [pow_succ, ← div_div]
    exact ih.shiftRightOne

theorem represents_exact (m : ℕ) : Represents (.ofMantissaAndAccuracy m .exact) m := rfl

/-- The accuracy of a fraction below one. -/
theorem represents_fraction (m num : ℕ) {den : ℕ} (hlt : num < den) :
    Represents (.ofMantissaAndAccuracy m (accuracyOfFraction num den)) (m + num / den) := by
  have hden : (0 : ℚ) < den := by exact_mod_cast Nat.zero_lt_of_lt hlt
  unfold accuracyOfFraction
  split
  · next hzero => simp [ExtendedMantissa.ofMantissaAndAccuracy, Represents, hzero]
  · next hne =>
    have hpos : (0 : ℚ) < num := by exact_mod_cast Nat.pos_of_ne_zero hne
    have hlt' : (num : ℚ) < den := by exact_mod_cast hlt
    rcases hcompare : compare (2 * num) den with _ | _ | _
    · have hhalf : 2 * (num : ℚ) < den := by exact_mod_cast Nat.compare_eq_lt.mp hcompare
      simp only [ExtendedMantissa.ofMantissaAndAccuracy, Represents]
      have hfraction : (num : ℚ) / den < 1 / 2 := by rw [div_lt_div_iff₀ hden two_pos]; linarith
      exact ⟨by linarith [div_pos hpos hden], by linarith⟩
    · have hhalf : 2 * (num : ℚ) = den := by exact_mod_cast Nat.compare_eq_eq.mp hcompare
      simp only [ExtendedMantissa.ofMantissaAndAccuracy, Represents]
      rw [← hhalf]
      field_simp
    · have hhalf : (den : ℚ) < 2 * num := by exact_mod_cast Nat.compare_eq_gt.mp hcompare
      simp only [ExtendedMantissa.ofMantissaAndAccuracy, Represents]
      have hfraction : 1 / 2 < (num : ℚ) / den := by rw [div_lt_div_iff₀ two_pos hden]; linarith
      have hone : (num : ℚ) / den < 1 := (div_lt_one hden).mpr hlt'
      exact ⟨by linarith, by linarith⟩

/-! ## Shifts -/

theorem log_eq {q : ℚ} {k : ℤ} (hle : 2 ^ k ≤ q) (hlt : q < 2 ^ (k + 1)) : Int.log 2 q = k := by
  have hpos : 0 < q := (two_zpow_pos k).trans_le hle
  have hlower := (Int.zpow_le_iff_le_log (b := 2) (by norm_num) hpos).mp (by simpa using hle)
  have hupper := (Int.lt_zpow_iff_log_lt (b := 2) (by norm_num) hpos).mp (by simpa using hlt)
  omega

/-- The steps between two powers of two. -/
theorem step_eq {q : ℚ} {e : ℤ} (he : -1074 ≤ e) (hle : 2 ^ (e + 52) ≤ q) (hlt : q < 2 ^ (e + 53)) :
    step q = e := by
  have hlog : Int.log 2 q = e + 52 := log_eq hle (by rwa [add_assoc])
  rw [step, abs_of_pos ((two_zpow_pos _).trans_le hle), hlog]
  omega

theorem pow_log2_le {m : ℕ} (hm : m ≠ 0) : (2 : ℚ) ^ (m.log2 : ℤ) ≤ m := by
  have hle := Nat.log2_self_le hm
  rw [zpow_natCast]
  exact_mod_cast hle

theorem lt_pow_log2 (m : ℕ) : (m : ℚ) + 1 ≤ 2 ^ ((m.log2 : ℤ) + 1) := by
  have hlt := Nat.lt_log2_self (n := m)
  rw [← Nat.cast_succ, ← Int.natCast_succ, zpow_natCast]
  exact_mod_cast hlt

/-- The position of the first digit of a number is that of its mantissa. -/
theorem Represents.log (h : Represents em x) (hm : em.mantissa ≠ 0) (e : ℤ) :
    Int.log 2 (x * 2 ^ e) = em.mantissa.log2 + e := by
  have hbounds := h.bounds
  have hpos := two_zpow_pos e
  refine log_eq ?_ ?_
  · rw [zpow_add₀ (by norm_num)]
    exact mul_le_mul_of_nonneg_right ((pow_log2_le hm).trans hbounds.1) hpos.le
  · rw [show (em.mantissa.log2 : ℤ) + e + 1 = em.mantissa.log2 + 1 + e by ring,
      zpow_add₀ (by norm_num)]
    exact mul_lt_mul_of_pos_right (hbounds.2.trans_le (lt_pow_log2 _)) hpos

theorem targetExponent_eq (total : ℤ) :
    Format.binary64.targetExponent total = max (total - 53) (-1074) := rfl

/-- Mantissas are shifted to the steps in which the number is rounded.  A mantissa may be zero if
the least steps are reached. -/
theorem Represents.target (h : Represents em x) (hx : 0 < x) {e : ℤ}
    (hbits : em.mantissa ≠ 0 ∨ e ≤ -1074) :
    Format.binary64.targetExponent (totalExponent em.mantissa e) = step (x * 2 ^ e) := by
  have hpos : 0 < x * 2 ^ e := mul_pos hx (two_zpow_pos e)
  rw [targetExponent_eq, totalExponent, step, abs_of_pos hpos]
  rcases eq_or_ne em.mantissa 0 with hzero | hne
  · have he := hbits.resolve_left (not_not.mpr hzero)
    have hlt : x * 2 ^ e < 2 ^ e := by
      have hone := h.bounds.2
      rw [hzero, Nat.cast_zero, zero_add] at hone
      exact mul_lt_of_lt_one_left (two_zpow_pos e) hone
    have hlog := (Int.lt_zpow_iff_log_lt (b := 2) (by norm_num) hpos).mp (by simpa using hlt)
    rw [hzero, Nat.log2_zero]
    omega
  · rw [h.log hne]
    omega

theorem shiftToExponent_of_le (m : ℕ) {e target : ℤ} (accuracy : Accuracy) (h : e ≤ target) :
    ∃ n : ℕ, (n : ℤ) = target - e ∧ shiftToExponent m e accuracy target =
      (ExtendedMantissa.ofMantissaAndAccuracy m accuracy >>> n, target) := by
  obtain ⟨n, hn⟩ := Int.eq_ofNat_of_zero_le (sub_nonneg.mpr h)
  refine ⟨n, hn.symm, ?_⟩
  simp only [shiftToExponent, hn, Int.toNat_natCast]
  congr 1
  omega

theorem shiftToExponent_of_ge (m : ℕ) {e target : ℤ} (h : target ≤ e) :
    shiftToExponent m e .exact target = (⟨m, false, false⟩, e) := by
  have hzero : (target - e).toNat = 0 := Int.toNat_eq_zero.mpr (by omega)
  simp only [shiftToExponent, hzero, Nat.cast_zero, add_zero]
  rfl

end SynthData.Binary64
