import SynthData.Decimal.Binary
import SynthData.Proofs.Double.Integers

/-!
# Fractions and doubles

A fraction becomes the nearest double (`reads_ofRatio`), or an infinity if it is too large
(`isFinite_ofRatio`).  It is divided by the step in which numbers of its size are rounded, what
comes out is rounded to an integer (`nearestBits_eq`), and the bits of that integer and of the step
are those of a double (`reads_signed`).
-/
namespace SynthData.Binary64

open Float.Model (UnpackedFloat Format)
open Float.Model.UnpackedFloat
open Binary (infinityBits leastExponent roundHalfEven scaleDown nearestBits ofRatio)

variable {num den : ℕ}

/-! ## The mantissa of a fraction -/

theorem hidden_eq : Binary.hidden = 2 ^ 52 := rfl

/-- A quotient is rounded to the nearest integer. -/
theorem roundHalfEven_eq (num : ℕ) (hden : 0 < den) :
    (roundHalfEven num den : ℤ) = nearestEven (num / den) := by
  have hpos : (0 : ℚ) < den := by exact_mod_cast hden
  have hfloor : ⌊(num : ℚ) / den⌋ = (num / den : ℕ) := Rat.floor_natCast_div_natCast num den
  have hfract : Int.fract ((num : ℚ) / den) = (num % den : ℕ) / den :=
    Int.fract_div_natCast_eq_div_natCast_mod
  have hbelow : ((num % den : ℕ) : ℚ) / den < 1 / 2 ↔ 2 * (num % den) < den := by
    rw [div_lt_div_iff₀ hpos two_pos, one_mul, mul_comm]
    exact_mod_cast Iff.rfl
  have habove : 1 / 2 < ((num % den : ℕ) : ℚ) / den ↔ den < 2 * (num % den) := by
    rw [div_lt_div_iff₀ two_pos hpos, one_mul, mul_comm]
    exact_mod_cast Iff.rfl
  simp only [roundHalfEven, nearestEven, hfract, hfloor, hbelow, habove]
  split_ifs <;> omega

theorem scaleDown_pos (num : ℕ) (hden : 0 < den) (e : ℤ) : 0 < (scaleDown num den e).2 := by
  rw [scaleDown]
  split
  · exact Nat.mul_pos hden (Nat.two_pow_pos _)
  · exact hden

theorem scaleDown_div (num den : ℕ) (e : ℤ) :
    ((scaleDown num den e).1 : ℚ) / (scaleDown num den e).2 = num / den / 2 ^ e := by
  rw [scaleDown]
  split
  · next hnonneg =>
    obtain ⟨k, rfl⟩ := Int.eq_ofNat_of_zero_le hnonneg
    simp [div_div]
  · next hneg =>
    obtain ⟨k, hk⟩ := Int.eq_ofNat_of_zero_le (show 0 ≤ -e by omega)
    obtain rfl : e = -(k : ℤ) := by omega
    simp [div_eq_mul_inv, mul_right_comm]

theorem fraction_pos (hnum : 0 < num) (hden : 0 < den) : (0 : ℚ) < num / den :=
  div_pos (by exact_mod_cast hnum) (by exact_mod_cast hden)

/-- The first digits of numerator and denominator tell the position of the first digit of a
fraction, but for one place. -/
theorem log_div (hnum : 0 < num) (hden : 0 < den) :
    Int.log 2 ((num : ℚ) / den) = num.log2 - den.log2 - 1 ∨
      Int.log 2 ((num : ℚ) / den) = num.log2 - den.log2 := by
  have hpos := fraction_pos hnum hden
  have hlower : (2 : ℚ) ^ ((num.log2 : ℤ) - den.log2 - 1) ≤ num / den := by
    have hle := pow_log2_le hnum.ne'
    have hlt := (lt_add_one (den : ℚ)).le.trans (lt_pow_log2 den)
    rw [sub_sub, zpow_sub₀ (by norm_num)]
    exact div_le_div₀ (Nat.cast_nonneg num) hle (by exact_mod_cast hden) hlt
  have hupper : (num : ℚ) / den < 2 ^ ((num.log2 : ℤ) - den.log2 + 1) := by
    have hlt := (lt_add_one (num : ℚ)).trans_le (lt_pow_log2 num)
    have hle := pow_log2_le hden.ne'
    rw [sub_add_eq_add_sub, zpow_sub₀ (by norm_num)]
    exact div_lt_div₀ hlt hle (two_zpow_pos _).le (two_zpow_pos _)
  have hge := (Int.zpow_le_iff_le_log (b := 2) (by norm_num) hpos).mp (by simpa using hlower)
  have hlt := (Int.lt_zpow_iff_log_lt (b := 2) (by norm_num) hpos).mp (by simpa using hupper)
  omega

/-- A scaled fraction has fewer than 53 digits if its first digit is below the 53rd. -/
theorem scaleDown_lt_iff (hnum : 0 < num) (hden : 0 < den) (e : ℤ) :
    (scaleDown num den e).1 < (scaleDown num den e).2 * Binary.hidden ↔
      Int.log 2 ((num : ℚ) / den) < 52 + e := by
  have hpos := fraction_pos hnum hden
  have hden' : (0 : ℚ) < (scaleDown num den e).2 := by exact_mod_cast scaleDown_pos num hden e
  calc (scaleDown num den e).1 < (scaleDown num den e).2 * Binary.hidden
      ↔ ((scaleDown num den e).1 : ℚ) < 2 ^ 52 * (scaleDown num den e).2 := by
        rw [hidden_eq, mul_comm]
        exact_mod_cast Iff.rfl
    _ ↔ (num : ℚ) / den / 2 ^ e < 2 ^ 52 := by rw [← div_lt_iff₀ hden', scaleDown_div]
    _ ↔ (num : ℚ) / den < 2 ^ (52 + e) := by
        rw [div_lt_iff₀ (two_zpow_pos e), zpow_add₀ (by norm_num)]
        rfl
    _ ↔ Int.log 2 ((num : ℚ) / den) < 52 + e := by
        rw [← Int.lt_zpow_iff_log_lt (b := 2) (by norm_num) hpos]
        simp

/-- The step is guessed from the first digits, and the guess is one too large if the scaled fraction
has a digit less. -/
theorem guess_eq {guess : ℤ} (hnum : 0 < num) (hden : 0 < den)
    (hguess : max (Int.ofNat num.log2 - Int.ofNat den.log2 - 52) leastExponent = guess) :
    (if (scaleDown num den guess).1 < (scaleDown num den guess).2 * Binary.hidden
      then max (guess - 1) leastExponent else guess) = step (num / den) := by
  have hpos := fraction_pos hnum hden
  have hlog := log_div hnum hden
  have hleast : leastExponent = -1074 := rfl
  simp only [scaleDown_lt_iff hnum hden, step, abs_of_pos hpos]
  simp only [Int.ofNat_eq_natCast] at hguess
  split_ifs <;> omega

/-- **A fraction is divided by its step and rounded.** -/
theorem nearestBits_eq (hnum : 0 < num) (hden : 0 < den) :
    ∃ m : ℕ, (m : ℤ) = nearestEven (num / den / 2 ^ step (num / den)) ∧
      nearestBits num den = if m < Binary.hidden then m
        else min ((step (num / den) + 1074).toNat * Binary.hidden + m) infinityBits := by
  refine ⟨_, (roundHalfEven_eq _ (scaleDown_pos num hden (step (num / den)))).trans
    (by rw [scaleDown_div]), ?_⟩
  -- with its value, the bit that is not stored would be computed with
  obtain ⟨bit, hbit⟩ : ∃ bit, bit = Binary.hidden := ⟨_, rfl⟩
  have hstep := guess_eq hnum hden rfl
  rw [← hbit] at hstep
  rw [nearestBits, if_neg hnum.ne', ← hbit, ← hstep]

/-! ## Words -/

/-- The sign of a number that is negative or not. -/
def signOf (negative : Bool) : Sign := if negative then .negative else .positive

theorem toNat_append {v w : ℕ} (a : BitVec v) (b : BitVec w) :
    (a ++ b).toNat = a.toNat * 2 ^ w + b.toNat := by
  rw [BitVec.toNat_append, ← Nat.shiftLeft_add_eq_or_of_lt b.isLt, Nat.shiftLeft_eq]

theorem toNat_sign (negative : Bool) :
    (signOf negative).toBitVec.toNat * 2 ^ 63 = if negative then Binary.signBit else 0 := by
  cases negative <;> simp [signOf, Sign.toBitVec, Binary.signBit]

/-- A sign, an exponent and a mantissa put together to a word. -/
theorem toBitVec_signed (negative : Bool) (biased fraction : ℕ) (hbiased : biased < 2 ^ 11)
    (hfraction : fraction < 2 ^ 52) :
    (Binary.signed negative (biased * Binary.hidden + fraction)).bits.toBitVec =
      packComponents Format.binary64 (signOf negative) (BitVec.ofNat 11 biased)
        (BitVec.ofNat 52 fraction) := by
  apply BitVec.eq_of_toNat_eq
  have hlt := (signOf negative).toBitVec.isLt
  have hparts : (packComponents Format.binary64 (signOf negative) (BitVec.ofNat 11 biased)
      (BitVec.ofNat 52 fraction)).toNat =
      ((signOf negative).toBitVec.toNat * 2 ^ 11 + biased) * 2 ^ 52 + fraction := by
    rw [packComponents]
    refine (toNat_append _ _).trans ?_
    rw [toNat_append, BitVec.toNat_ofNat, BitVec.toNat_ofNat, Nat.mod_eq_of_lt hbiased,
      Nat.mod_eq_of_lt hfraction]
  rw [hparts, Binary.signed, UInt64.toNat_toBitVec, UInt64.toNat_ofNat', ← toNat_sign, hidden_eq]
  omega

variable {d : Double} {u : UnpackedFloat} {q : ℚ}

/-- The parts of the bits of a double are those of the double. -/
theorem unpack_toFloat (h : UnpackedFloat.unpack Format.binary64 d.bits.toBitVec = u)
    (hcanonical : Canonical u) (hfits : Fits u) : d.toFloat.toModel.unpack = u := by
  show (Float.Model.pack (UnpackedFloat.unpack Format.binary64 d.bits.toBitVec)).unpack = u
  rw [h, unpack_pack hcanonical hfits]

/-- Bits below the one that is not stored are a mantissa with the least exponent. -/
theorem reads_subnormal (negative : Bool) {m : ℕ} (hlt : m < 2 ^ 52) :
    Reads (Binary.signed negative m).toFloat
      (signed (signOf negative) (m * 2 ^ (-1074 : ℤ))) := by
  have hword := toBitVec_signed negative 0 m (by norm_num) hlt
  rw [zero_mul, zero_add] at hword
  rw [Reads]
  rcases Nat.eq_zero_or_pos m with rfl | hpos
  · have hunpack : UnpackedFloat.unpack Format.binary64
        (Binary.signed negative 0).bits.toBitVec = .zero (signOf negative) := by
      rw [hword]
      cases negative <;> rfl
    rw [unpack_toFloat hunpack trivial trivial, Nat.cast_zero, zero_mul]
    cases negative with
    | false => exact .zero _
    | true => simpa [signed, signOf] using Denotes.zero .negative
  · have hunpack := unpack_subnormal (signOf negative) hpos hlt
    rw [← hword] at hunpack
    rw [unpack_toFloat hunpack ⟨hlt.trans (by norm_num), le_rfl, Or.inr rfl⟩ (by norm_num [Fits])]
    exact .finite _ _ _ _

/-- Other bits are a mantissa of 53 bits and the exponent above it. -/
theorem reads_normal (negative : Bool) {m : ℕ} {e : ℤ} (hle : 2 ^ 52 ≤ m) (hlt : m < 2 ^ 53)
    (he : -1074 ≤ e) (hmax : e ≤ 971) :
    Reads (Binary.signed negative ((e + 1074).toNat * Binary.hidden + m)).toFloat
      (signed (signOf negative) (m * 2 ^ e)) := by
  obtain ⟨k, hk⟩ := Int.eq_ofNat_of_zero_le (show 0 ≤ e + 1074 by omega)
  obtain ⟨fraction, rfl⟩ := Nat.exists_eq_add_of_le hle
  have hword := toBitVec_signed negative (k + 1) fraction (by omega) (by omega)
  have hbits : (k + 1) * Binary.hidden + fraction = (e + 1074).toNat * Binary.hidden +
      (2 ^ 52 + fraction) := by
    rw [hk, Int.toNat_natCast, hidden_eq]
    ring
  have hfraction : BitVec.ofNat 52 fraction = BitVec.ofNat 52 (2 ^ 52 + fraction) := by
    apply BitVec.eq_of_toNat_eq
    simp
  have hunpack := unpack_normal (signOf negative) hle hlt (show 0 < k + 1 by omega) (by omega)
  rw [← hfraction, ← hword, hbits] at hunpack
  have hexponent : ((k + 1 : ℕ) : ℤ) - 1075 = e := by omega
  rw [Reads, unpack_toFloat hunpack]
  · rw [← hexponent]
    exact .finite _ _ _ _
  · exact ⟨hlt, by omega, Or.inl hle⟩
  · show ((k + 1 : ℕ) : ℤ) - 1075 ≤ 971
    omega

/-- The bits above those of all numbers are an infinity. -/
theorem isFinite_infinityBits (negative : Bool) :
    (Binary.signed negative infinityBits).toFloat.isFinite = false := by
  cases negative <;> rfl

/-! ## The nearest double -/

/-- A mantissa that is rounded up to a power of two has one bit too many, and its bits are those of
half the mantissa with the next exponent. -/
theorem exists_normal {m : ℕ} {e : ℤ} (hle : 2 ^ 52 ≤ m) (hm : m ≤ 2 ^ 53) (he : -1074 ≤ e) :
    ∃ (m' : ℕ) (e' : ℤ), 2 ^ 52 ≤ m' ∧ m' < 2 ^ 53 ∧ -1074 ≤ e' ∧ (m' : ℚ) * 2 ^ e' = m * 2 ^ e ∧
      (e' + 1074).toNat * Binary.hidden + m' = (e + 1074).toNat * Binary.hidden + m := by
  rcases hm.lt_or_eq with hlt | rfl
  · exact ⟨m, e, hle, hlt, he, rfl, rfl⟩
  · refine ⟨2 ^ 52, e + 1, le_rfl, by norm_num, by omega, ?_, ?_⟩
    · rw [zpow_add_one₀ (by norm_num)]
      push_cast
      ring
    · rw [show (e + 1 + 1074).toNat = (e + 1074).toNat + 1 by omega, hidden_eq]
      ring

/-- What the bits of a fraction are: a mantissa of fewer than 53 bits, or one of 53 bits with an
exponent, unless the exponent is too large. -/
theorem nearestBits_cases (hnum : 0 < num) (hden : 0 < den) :
    (∃ m : ℕ, m < 2 ^ 52 ∧ rounded (num / den) = m * 2 ^ (-1074 : ℤ) ∧ nearestBits num den = m) ∨
      ∃ (m : ℕ) (e : ℤ), 2 ^ 52 ≤ m ∧ m < 2 ^ 53 ∧ -1074 ≤ e ∧ rounded (num / den) = m * 2 ^ e ∧
        nearestBits num den = min ((e + 1074).toNat * Binary.hidden + m) infinityBits := by
  have hpos := fraction_pos hnum hden
  obtain ⟨m, hm, hbits⟩ := nearestBits_eq hnum hden
  rw [hidden_eq] at hbits ⊢
  have hvalue : rounded (num / den) = m * 2 ^ step (num / den) := by
    rw [rounded, ← hm, Int.cast_natCast]
  have hstep := le_step (num / den : ℚ)
  rcases lt_or_ge m (2 ^ 52) with hlt | hge
  · left
    have hleast : step (num / den) = -1074 := by
      by_contra hne
      have hle := le_nearestEven_of_step hpos (lt_of_le_of_ne hstep (Ne.symm hne))
      omega
    exact ⟨m, hlt, hleast ▸ hvalue, by rw [hbits, if_pos hlt]⟩
  · right
    have hle : m ≤ 2 ^ 53 := by
      have hbound := nearestEven_le_of_step hpos
      omega
    obtain ⟨m', e', hge', hlt', he', hvalue', hbits'⟩ := exists_normal hge hle hstep
    rw [hidden_eq] at hbits'
    refine ⟨m', e', hge', hlt', he', hvalue.trans hvalue'.symm, ?_⟩
    rw [hbits, if_neg (not_lt.mpr hge), hbits']

/-- The bits of numbers with an exponent that is not too large are below those of an infinity. -/
theorem bits_le_infinityBits {m : ℕ} {e : ℤ} (hlt : m < 2 ^ 53) (hmax : e ≤ 971) :
    (e + 1074).toNat * Binary.hidden + m ≤ infinityBits := by
  rw [infinityBits, hidden_eq]
  omega

theorem infinityBits_le {m : ℕ} {e : ℤ} (hge : 2 ^ 52 ≤ m) (hmax : 971 < e) :
    infinityBits ≤ (e + 1074).toNat * Binary.hidden + m := by
  rw [infinityBits, hidden_eq]
  omega

/-- **A fraction becomes the nearest double.** -/
theorem reads_ofRatio (negative : Bool) (num : ℕ) (hden : 0 < den)
    (h : rounded (num / den) < limit) :
    Reads (ofRatio negative num den).toFloat (signed (signOf negative) (rounded (num / den))) := by
  rw [ofRatio]
  rcases Nat.eq_zero_or_pos num with rfl | hnum
  · have hzero := reads_subnormal negative (m := 0) (by norm_num)
    rw [Nat.cast_zero, zero_mul] at hzero
    rw [Nat.cast_zero, zero_div, rounded_zero]
    exact hzero
  · obtain ⟨m, hlt, hvalue, hbits⟩ | ⟨m, e, hge, hlt, he, hvalue, hbits⟩ :=
      nearestBits_cases hnum hden
    · rw [hvalue, hbits]
      exact reads_subnormal negative hlt
    · have hmax : e ≤ 971 := by
        by_contra hlarge
        refine absurd h (not_lt.mpr ?_)
        rw [hvalue, limit]
        calc (2 : ℚ) ^ (1024 : ℤ) ≤ 2 ^ (52 + e) := zpow_le_zpow_right₀ (by norm_num) (by omega)
          _ = 2 ^ (52 : ℤ) * 2 ^ e := zpow_add₀ (by norm_num) _ _
          _ ≤ m * 2 ^ e := mul_le_mul_of_nonneg_right (by exact_mod_cast hge) (two_zpow_pos e).le
      rw [hvalue, hbits, min_eq_left (bits_le_infinityBits hlt hmax)]
      exact reads_normal negative hge hlt he hmax

/-- **A fraction that is too large becomes an infinity.** -/
theorem isFinite_ofRatio (negative : Bool) (hden : 0 < den) (h : limit ≤ rounded (num / den)) :
    (ofRatio negative num den).toFloat.isFinite = false := by
  rcases Nat.eq_zero_or_pos num with rfl | hnum
  · rw [Nat.cast_zero, zero_div, rounded_zero] at h
    exact absurd h (not_le.mpr (two_zpow_pos 1024))
  rw [ofRatio]
  obtain ⟨m, hlt, hvalue, -⟩ | ⟨m, e, hge, hlt, he, hvalue, hbits⟩ := nearestBits_cases hnum hden
  · rw [hvalue] at h
    have hsmall : m < 2 ^ 53 := hlt.trans (by norm_num)
    exact absurd h (not_le.mpr (mul_zpow_lt_limit hsmall (by norm_num)))
  · have hmax : 971 < e := by
      by_contra hsmall
      rw [hvalue] at h
      exact absurd h (not_le.mpr (mul_zpow_lt_limit hlt (not_lt.mp hsmall)))
    rw [hbits, min_eq_right (infinityBits_le hge hmax)]
    exact isFinite_infinityBits negative

end SynthData.Binary64
