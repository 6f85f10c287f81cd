import SynthData.Proofs.Double.Arithmetic

/-!
# Integers and doubles

An integer becomes the nearest double (`reads_ofInt`), and a double becomes a word by losing its
fraction (`Reads.toUInt64`).

Integers of 53 bits are doubles.  Between two and four times that, every other integer is one, so a
number above an integer is not rounded to one below it (`le_rounded_of_lt`).
-/
namespace SynthData.Binary64

open Float.Model (UnpackedFloat Format)
open Float.Model.UnpackedFloat

variable {a b : Float} {x y : ℚ}

/-! ## From integers -/

/-- **An integer becomes the nearest double.** -/
theorem reads_ofInt {n : ℤ} (h : |rounded n| < limit) :
    Reads (.ofModel (.ofInt n)) (rounded n) := by
  have hgives := normalize_gives n 0
  rw [zpow_zero, mul_one] at hgives
  exact hgives.pack h

/-! ## To words -/

theorem roundToInt_positive (m : ℕ) (e : ℤ) : roundToInt .positive m e = ⌊(m : ℚ) * 2 ^ e⌋ := by
  obtain ⟨k, hk⟩ : ∃ k : ℕ, k = (e - 0).toNat := ⟨_, rfl⟩
  have hle : e - k ≤ 0 := by omega
  obtain ⟨n, hn, hshift⟩ := shiftToExponent_of_le (m <<< k) .exact hle
  have hfloor := ((represents_exact (m <<< k)).shiftRight n).floor
  have hvalue : ((m <<< k : ℕ) : ℚ) / 2 ^ n = m * 2 ^ e := by
    rw [← shiftLeft_mul_zpow m e k, show e - k = -(n : ℤ) by omega, zpow_neg, zpow_natCast,
      div_eq_mul_inv]
  rw [hvalue] at hfloor
  simp only [roundToInt, decreaseExponent, ← hk, hshift]
  exact hfloor.symm

/-- **A double that becomes a word loses its fraction.** -/
theorem Reads.toUInt64 (ha : Reads a x) (hx : 0 ≤ x) (hlt : x < 2 ^ 64) :
    a.toUInt64.toNat = ⌊x⌋₊ := by
  have hfloor : ∀ low high, UnpackedFloat.toInt low high a.toModel.unpack = ⌊x⌋ := by
    intro low high
    have hdenotes : Denotes a.toModel.unpack x := ha
    generalize a.toModel.unpack = u at hdenotes
    cases hdenotes with
    | zero s => rfl
    | finite s m e pos =>
      cases s with
      | negative => exact absurd hx (not_le.mpr (signed_neg pos e))
      | positive => exact roundToInt_positive m e
  have hsize : ⌊x⌋₊ < UInt64.size := (Nat.floor_lt hx).mpr (by exact_mod_cast hlt)
  show (UInt64.ofNatClamp (UnpackedFloat.toInt _ _ _).toNat).toNat = _
  rw [hfloor, Int.floor_toNat, UInt64.ofNatClamp, dif_pos hsize]
  rfl

/-! ## Integers among the doubles -/

theorem hasBits_two_pow (k : ℕ) : HasBits (2 ^ k) :=
  ⟨1, k, by norm_num, by omega, by simp⟩

/-- What has been rounded has 53 bits. -/
theorem hasBits_rounded (q : ℚ) : HasBits (rounded q) := by
  -- negative numbers are rounded as their opposites are
  suffices hpos : ∀ q : ℚ, 0 < q → HasBits (rounded q) by
    rcases lt_trichotomy q 0 with hneg | rfl | hq
    · obtain ⟨m, e, hm, he, heq⟩ := hpos (-q) (neg_pos.mpr hneg)
      rw [rounded_neg] at heq
      refine ⟨-m, e, by rwa [abs_neg], he, ?_⟩
      rw [Int.cast_neg, neg_mul, ← heq, neg_neg]
    · rw [rounded_zero]
      exact ⟨0, 0, by norm_num, by norm_num, by simp⟩
    · exact hpos q hq
  intro q hq
  have hnonneg : 0 ≤ nearestEven (q / 2 ^ step q) :=
    (Int.floor_nonneg.mpr (div_nonneg hq.le (two_zpow_pos _).le)).trans (floor_le_nearestEven _)
  rcases (nearestEven_le_of_step hq).lt_or_eq with hlt | heq
  · exact ⟨_, step q, by rwa [abs_of_nonneg hnonneg], le_step q, rfl⟩
  · refine ⟨1, step q + 53, by norm_num, by have := le_step q; omega, ?_⟩
    rw [rounded, heq, add_comm, zpow_add₀ (by norm_num)]
    norm_num

/-- **Integers of 53 bits are doubles**, and so is the power of two that follows. -/
theorem rounded_intCast {n : ℤ} (h : |n| ≤ 2 ^ 53) : rounded n = n := by
  rcases h.lt_or_eq with hlt | heq
  · exact HasBits.rounded ⟨n, 0, hlt, by norm_num, by simp⟩
  · have hpow : rounded ((2 ^ 53 : ℤ) : ℚ) = (2 ^ 53 : ℤ) := by
      exact_mod_cast (hasBits_two_pow 53).rounded
    rcases abs_eq (by norm_num) |>.mp heq with rfl | rfl
    · exact hpow
    · rw [Int.cast_neg, rounded_neg, hpow]

/-- The steps of integers of more bits are integers. -/
theorem step_nonneg {n : ℤ} (h : 2 ^ 53 < |n|) : 0 ≤ step n := by
  have hpos : (0 : ℚ) < |(n : ℚ)| := by exact_mod_cast (show (0 : ℤ) < 2 ^ 53 by norm_num).trans h
  have hle : ((2 : ℕ) : ℚ) ^ (52 : ℤ) ≤ |(n : ℚ)| := by
    exact_mod_cast (show (2 : ℤ) ^ 52 ≤ 2 ^ 53 by norm_num).trans h.le
  have hlog := (Int.zpow_le_iff_le_log (b := 2) (by norm_num) hpos).mp hle
  rw [step]
  omega

/-- **Integers are rounded to integers.** -/
theorem exists_rounded_intCast (n : ℤ) : ∃ z : ℤ, rounded n = z := by
  rcases le_or_gt |n| (2 ^ 53) with hsmall | hlarge
  · exact ⟨n, rounded_intCast hsmall⟩
  · obtain ⟨k, hk⟩ := Int.eq_ofNat_of_zero_le (step_nonneg hlarge)
    refine ⟨nearestEven (n / 2 ^ step n) * 2 ^ k, ?_⟩
    rw [rounded, hk]
    push_cast
    rfl

/-- Even integers of 54 bits are doubles. -/
theorem rounded_two_mul {n : ℤ} (h : |n| ≤ 2 ^ 53) : rounded (2 * n) = 2 * n := by
  rcases h.lt_or_eq with hlt | heq
  · exact HasBits.rounded ⟨n, 1, hlt, by norm_num, by rw [zpow_one, mul_comm]⟩
  · have hpow : rounded (2 * ((2 ^ 53 : ℤ) : ℚ)) = 2 * (2 ^ 53 : ℤ) := by
      exact_mod_cast (hasBits_two_pow 54).rounded
    rcases abs_eq (by norm_num) |>.mp heq with rfl | rfl
    · exact hpow
    · rw [Int.cast_neg, mul_neg, rounded_neg, hpow]

/-- Above an odd integer of 54 bits, numbers are rounded upwards at first. -/
theorem rounded_above_odd {k : ℤ} (hk : 2 ^ 52 ≤ k) (hlt : k < 2 ^ 53) {x : ℚ}
    (h : 2 * k + 1 < x) (hle : x ≤ 2 * k + 3 / 2) : rounded x = 2 * (k + 1) := by
  have hk' : (2 : ℚ) ^ 52 ≤ k := by exact_mod_cast hk
  have hlt' : (k : ℚ) + 1 ≤ 2 ^ 53 := by exact_mod_cast hlt
  have hstep : step x = 1 :=
    step_eq (by norm_num) (by norm_num at *; linarith) (by norm_num at *; linarith)
  have hfloor : ⌊x / 2⌋ = k := Int.floor_eq_iff.mpr ⟨by linarith, by linarith⟩
  have hnearest : nearestEven (x / 2) = k + 1 := by
    rw [nearestEven, Int.fract, hfloor, if_neg (by linarith), if_pos (by linarith)]
  rw [rounded, hstep, zpow_one, hnearest]
  push_cast
  ring

/-- **A number above an integer of 54 bits is not rounded to one below it.** -/
theorem le_rounded_of_lt {n : ℤ} (hn : 0 ≤ n) (hle : n ≤ 2 ^ 54) (h : (n : ℚ) < x) :
    n ≤ rounded x := by
  rcases le_or_gt n (2 ^ 53) with hsmall | hlarge
  · have hmono := rounded_mono h.le
    rwa [rounded_intCast (by rwa [abs_of_nonneg hn])] at hmono
  · obtain ⟨k, rfl | rfl⟩ := Int.even_or_odd' n
    · have hmono := rounded_mono h.le
      push_cast at hmono ⊢
      rwa [rounded_two_mul (by rw [abs_of_nonneg] <;> omega)] at hmono
    · -- odd integers of 54 bits are none, but only the integer itself is rounded to the one below
      push_cast at h ⊢
      have hmono : rounded (min x (2 * k + 3 / 2)) ≤ rounded x := rounded_mono (min_le_left _ _)
      have hmin : 2 * (k : ℚ) + 1 < min x (2 * k + 3 / 2) := lt_min h (by linarith)
      rw [rounded_above_odd (by omega) (by omega) hmin (min_le_right _ _)] at hmono
      linarith

end SynthData.Binary64
