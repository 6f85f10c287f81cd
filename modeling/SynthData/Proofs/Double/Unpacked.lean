import Mathlib
import SynthData.Proofs.Double.Mantissa

/-!
# Calculation with mantissas and exponents

A double is taken apart for a calculation, and the result is put together again.
In between it has a mantissa of 53 bits, or of fewer bits and the least exponent
(`Canonical`).  A sum, a difference, a product or a quotient of such numbers is the exact
one, rounded (`add_gives`, `sub_gives`, `mul_gives`, `div_gives`), and comparison is
comparison of numbers (`compare_gives`).
-/
namespace SynthData.Binary64

open Float.Model (UnpackedFloat Format totalExponent)
open Float.Model.UnpackedFloat

/-- A number with a sign. -/
def signed : Sign → ℚ → ℚ
  | .negative, q => -q
  | .positive, q => q

/-- The numbers that mantissas and exponents stand for. -/
inductive Denotes : UnpackedFloat → ℚ → Prop
  | zero (s : Sign) : Denotes (.zero s) 0
  | finite (s : Sign) (m : ℕ) (e : ℤ) (pos : 0 < m) :
    Denotes (.finite s m e pos) (signed s (m * 2 ^ e))

theorem Denotes.unique {u : UnpackedFloat} {q r : ℚ} (h : Denotes u q) (h' : Denotes u r) :
    q = r := by
  cases h <;> cases h' <;> rfl

/-- Mantissas are as long as they can be. -/
def Canonical : UnpackedFloat → Prop
  | .finite _ m e _ => m < 2 ^ 53 ∧ -1074 ≤ e ∧ (2 ^ 52 ≤ m ∨ e = -1074)
  | _ => True

/-- The result of a calculation is a number. -/
structure Gives (u : UnpackedFloat) (q : ℚ) : Prop where
  canonical : Canonical u
  denotes : Denotes u q

theorem abs_signed (s : Sign) (m : ℕ) (e : ℤ) : |signed s (m * 2 ^ e)| = m * 2 ^ e := by
  have hnonneg : (0 : ℚ) ≤ m * 2 ^ e := mul_nonneg m.cast_nonneg (two_zpow_pos e).le
  cases s with
  | negative => rw [signed, abs_neg, abs_of_nonneg hnonneg]
  | positive => exact abs_of_nonneg hnonneg

theorem signed_rounded (s : Sign) (q : ℚ) : signed s (rounded q) = rounded (signed s q) := by
  cases s with
  | negative => exact (rounded_neg q).symm
  | positive => rfl

/-! ## Rounding -/

/-- A mantissa that has been rounded may have one bit too many. -/
theorem shiftToTargetExponent_rounded {m : ℕ} {e : ℤ} (hm : m ≤ 2 ^ 53) (he : -1074 ≤ e)
    (hbits : 2 ^ 52 ≤ m ∨ e = -1074) :
    ∃ (m' : ℕ) (e' : ℤ), shiftToTargetExponent Format.binary64 m e .exact =
        (⟨m', false, false⟩, e') ∧
      m' < 2 ^ 53 ∧ -1074 ≤ e' ∧ (2 ^ 52 ≤ m' ∨ e' = -1074) ∧ (m' : ℚ) * 2 ^ e' = m * 2 ^ e := by
  rw [shiftToTargetExponent, targetExponent_eq, totalExponent]
  rcases hm.eq_or_lt with rfl | hlt
  · have htarget : max (((2 ^ 53 : ℕ).log2 : ℤ) + 1 + e - 53) (-1074) = e + 1 := by
      rw [Nat.log2_two_pow]
      omega
    rw [htarget]
    refine ⟨2 ^ 52, e + 1, ?_, by norm_num, by omega, Or.inl le_rfl, ?_⟩
    · obtain ⟨n, hn, hshift⟩ :=
        shiftToExponent_of_le (2 ^ 53) .exact (show e ≤ e + 1 by omega)
      obtain rfl : n = 1 := by omega
      rw [hshift]
      rfl
    · rw [zpow_add_one₀ (by norm_num)]
      push_cast
      ring
  · refine ⟨m, e, shiftToExponent_of_ge m ?_, hlt, he, hbits, rfl⟩
    have hlog : m.log2 < 53 := by
      rcases eq_or_ne m 0 with rfl | hne
      · simp
      · exact (Nat.log2_lt hne).mpr hlt
    omega

theorem mantissa_ofMantissaAndAccuracy (m : ℕ) (accuracy : Accuracy) :
    (ExtendedMantissa.ofMantissaAndAccuracy m accuracy).mantissa = m := by
  rcases accuracy with _ | _ | _ | _ <;> rfl

/-- **A mantissa with an accuracy is rounded to the nearest number.** -/
theorem roundWithAccuracy_gives {m : ℕ} {accuracy : Accuracy} {x : ℚ} {e : ℤ} (s : Sign)
    (h : Represents (.ofMantissaAndAccuracy m accuracy) x) (hx : 0 < x)
    (hbits : m ≠ 0 ∨ e ≤ -1074) (he : e ≤ step (x * 2 ^ e)) :
    Gives (UnpackedFloat.roundWithAccuracy Format.binary64 s m e accuracy)
      (signed s (rounded (x * 2 ^ e))) := by
  have hpos : 0 < x * 2 ^ e := mul_pos hx (two_zpow_pos e)
  have hm := mantissa_ofMantissaAndAccuracy m accuracy
  have htarget := h.target hx (e := e) (by rwa [hm])
  rw [hm] at htarget
  obtain ⟨n, hn, hshift⟩ := shiftToExponent_of_le m accuracy he
  -- the first shift leaves a mantissa that is to be rounded
  have hshifted : shiftToTargetExponent Format.binary64 m e accuracy =
      (ExtendedMantissa.ofMantissaAndAccuracy m accuracy >>> n, step (x * 2 ^ e)) := by
    rw [shiftToTargetExponent, htarget, hshift]
  have hrounded := (h.shiftRight n).rounded
  have hquotient : x / 2 ^ n = x * 2 ^ e / 2 ^ step (x * 2 ^ e) := by
    rw [show step (x * 2 ^ e) = n + e by omega, zpow_add₀ (by norm_num), zpow_natCast]
    field_simp
  rw [hquotient] at hrounded
  generalize hr : (ExtendedMantissa.ofMantissaAndAccuracy m accuracy >>> n).roundedMantissa = r
    at hrounded
  have hvalue : rounded (x * 2 ^ e) = r * 2 ^ step (x * 2 ^ e) := by
    rw [rounded, ← hrounded, Int.cast_natCast]
  have hle : r ≤ 2 ^ 53 := by
    have hbound := nearestEven_le_of_step hpos
    rw [← hrounded] at hbound
    exact_mod_cast hbound
  have hge : 2 ^ 52 ≤ r ∨ step (x * 2 ^ e) = -1074 := by
    refine (le_step (x * 2 ^ e)).lt_or_eq.imp (fun hstep => ?_) Eq.symm
    have hbound := le_nearestEven_of_step hpos hstep
    rw [← hrounded] at hbound
    exact_mod_cast hbound
  obtain ⟨m', e', hshift', hlt', he', hbits', hvalue'⟩ :=
    shiftToTargetExponent_rounded hle (le_step (x * 2 ^ e)) hge
  rw [hvalue, ← hvalue']
  simp only [UnpackedFloat.roundWithAccuracy, hshifted, hr, hshift']
  split
  · next hzero =>
    refine ⟨trivial, ?_⟩
    rw [hzero, Nat.cast_zero, zero_mul]
    cases s with
    | negative => simpa [signed] using Denotes.zero .negative
    | positive => exact Denotes.zero .positive
  · exact ⟨⟨hlt', he', hbits'⟩, .finite s m' e' _⟩

theorem Gives.hasBits {u : UnpackedFloat} {q : ℚ} (h : Gives u q) : HasBits q := by
  obtain ⟨hcanonical, hdenotes⟩ := h
  cases hdenotes with
  | zero s => exact ⟨0, 0, by norm_num, by norm_num, by simp⟩
  | finite s m e pos =>
    obtain ⟨hm, he, -⟩ := hcanonical
    have hm' : |(m : ℤ)| < 2 ^ 53 := by
      rw [Nat.abs_cast]
      exact_mod_cast hm
    cases s with
    | negative =>
      refine ⟨-m, e, by rwa [abs_neg], he, ?_⟩
      rw [signed]
      push_cast
      ring
    | positive => exact ⟨m, e, hm', he, by simp [signed]⟩

theorem shiftLeft_mul_zpow (m : ℕ) (e : ℤ) (k : ℕ) :
    ((m <<< k : ℕ) : ℚ) * 2 ^ (e - k) = m * 2 ^ e := by
  rw [Nat.shiftLeft_eq, zpow_sub₀ (by norm_num), zpow_natCast]
  push_cast
  field_simp

/-- **A mantissa with an exponent is rounded to the nearest number.** -/
theorem round_gives (s : Sign) {m : ℕ} (hm : 0 < m) (e : ℤ) :
    Gives (UnpackedFloat.round Format.binary64 s m e) (signed s (rounded (m * 2 ^ e))) := by
  have hpos : (0 : ℚ) < m := by exact_mod_cast hm
  have htarget := (represents_exact m).target hpos (e := e) (Or.inl hm.ne')
  rw [mantissa_ofMantissaAndAccuracy] at htarget
  simp only [UnpackedFloat.round, decreaseExponent, htarget]
  generalize hk : (e - step (m * 2 ^ e)).toNat = k
  have hvalue := shiftLeft_mul_zpow m e k
  have hshifted : 0 < m <<< k := by
    rw [Nat.shiftLeft_eq]
    positivity
  rw [← hvalue]
  refine roundWithAccuracy_gives s (represents_exact _) (by exact_mod_cast hshifted)
    (Or.inl hshifted.ne') ?_
  rw [hvalue]
  omega

theorem normalize_gives (n e : ℤ) :
    Gives (UnpackedFloat.normalize Format.binary64 n e .positive) (rounded (n * 2 ^ e)) := by
  unfold UnpackedFloat.normalize
  rcases hcompare : compare n 0 with _ | _ | _
  · have hneg : n < 0 := Int.compare_eq_lt.mp hcompare
    have hgives := round_gives .negative (m := (-n).toNat) (by omega) e
    have hcast : (((-n).toNat : ℕ) : ℚ) = -n := by
      rw [← Int.cast_natCast, Int.toNat_of_nonneg (by omega)]
      push_cast
      rfl
    rwa [signed, ← rounded_neg, hcast, neg_mul, neg_neg] at hgives
  · obtain rfl : n = 0 := Int.compare_eq_eq.mp hcompare
    rw [Int.cast_zero, zero_mul, rounded_zero]
    exact ⟨trivial, .zero .positive⟩
  · have hpos : 0 < n := Int.compare_eq_gt.mp hcompare
    have hgives := round_gives .positive (m := n.toNat) (by omega) e
    have hcast : ((n.toNat : ℕ) : ℚ) = n := by
      rw [← Int.cast_natCast, Int.toNat_of_nonneg hpos.le]
    rwa [signed, hcast] at hgives

/-! ## Sums, products and quotients -/

variable {a b : UnpackedFloat} {x y : ℚ}

theorem cast_apply (s : Sign) (n : ℤ) : ((s.apply n : ℤ) : ℚ) = signed s n := by
  cases s with
  | negative => exact Int.cast_neg n
  | positive => rfl

theorem signed_mul (s : Sign) (q c : ℚ) : signed s (q * c) = signed s q * c := by
  cases s with
  | negative => exact (neg_mul q c).symm
  | positive => rfl

/-- Mantissas that are shifted to the smaller exponent have the exact sum. -/
theorem sum_of_shifted (s s' : Sign) (m m' : ℕ) {e e' : ℤ} {k k' : ℕ} (hk : e - min e e' = k)
    (hk' : e' - min e e' = k') :
    ((s.apply (m <<< k : ℕ) + s'.apply (m' <<< k' : ℕ) : ℤ) : ℚ) * 2 ^ min e e' =
      signed s (m * 2 ^ e) + signed s' (m' * 2 ^ e') := by
  have hvalue := shiftLeft_mul_zpow m e k
  have hvalue' := shiftLeft_mul_zpow m' e' k'
  rw [show e - k = min e e' by omega] at hvalue
  rw [show e' - k' = min e e' by omega] at hvalue'
  rw [Int.cast_add, cast_apply, cast_apply, add_mul, ← signed_mul, ← signed_mul,
    Int.cast_natCast, Int.cast_natCast, hvalue, hvalue']

/-- **A sum is the exact sum, rounded.** -/
theorem add_gives (ha : Gives a x) (hb : Gives b y) :
    Gives (UnpackedFloat.add Format.binary64 a b) (rounded (x + y)) := by
  have hx := ha.hasBits.rounded
  have hy := hb.hasBits.rounded
  have hdenotes := ha.denotes
  have hdenotes' := hb.denotes
  cases hdenotes with
  | zero s =>
    cases hdenotes' with
    | zero s' =>
      rw [add_zero, rounded_zero, UnpackedFloat.add]
      split
      · exact ⟨trivial, .zero s⟩
      · exact ⟨trivial, .zero .positive⟩
    | finite s' m' e' pos' =>
      rw [zero_add, hy]
      exact hb
  | finite s m e pos =>
    cases hdenotes' with
    | zero s' =>
      rw [add_zero, hx]
      exact ha
    | finite s' m' e' pos' =>
      obtain ⟨k, hk⟩ := Int.eq_ofNat_of_zero_le (sub_nonneg.mpr (min_le_left e e'))
      obtain ⟨k', hk'⟩ := Int.eq_ofNat_of_zero_le (sub_nonneg.mpr (min_le_right e e'))
      have hgives := normalize_gives (s.apply (m <<< k : ℕ) + s'.apply (m' <<< k' : ℕ)) (min e e')
      rw [sum_of_shifted s s' m m' hk hk'] at hgives
      simpa only [UnpackedFloat.add, decreaseExponent, hk, hk', Int.toNat_natCast] using
        hgives

theorem neg_gives (hb : Gives b y) : Gives b.neg (-y) := by
  obtain ⟨hcanonical, hdenotes⟩ := hb
  cases hdenotes with
  | zero s =>
    rw [neg_zero]
    exact ⟨trivial, .zero _⟩
  | finite s m e pos =>
    refine ⟨hcanonical, ?_⟩
    have hneg : -signed s ((m : ℚ) * 2 ^ e) = signed (-s) (m * 2 ^ e) := by
      cases s with
      | negative => exact neg_neg _
      | positive => rfl
    rw [hneg]
    exact .finite _ m e pos

theorem abs_gives (ha : Gives a x) : Gives a.abs |x| := by
  obtain ⟨hcanonical, hdenotes⟩ := ha
  cases hdenotes with
  | zero s =>
    rw [abs_zero]
    exact ⟨trivial, .zero _⟩
  | finite s m e pos =>
    refine ⟨hcanonical, ?_⟩
    rw [abs_signed]
    exact .finite .positive m e pos

/-- A difference is calculated as a sum. -/
theorem sub_eq_add (ha : Denotes a x) (hb : Denotes b y) :
    UnpackedFloat.sub Format.binary64 a b = UnpackedFloat.add Format.binary64 a b.neg := by
  cases ha with
  | zero s => cases hb <;> rfl
  | finite s m e pos =>
    cases hb with
    | zero s' => rfl
    | finite s' m' e' pos' =>
      have hneg (n : ℤ) : (-s').apply n = -s'.apply n := by
        cases s' with
        | negative => exact (neg_neg n).symm
        | positive => rfl
      simp only [UnpackedFloat.sub, UnpackedFloat.add, UnpackedFloat.neg, hneg, sub_eq_add_neg]

/-- **A difference is the exact difference, rounded.** -/
theorem sub_gives (ha : Gives a x) (hb : Gives b y) :
    Gives (UnpackedFloat.sub Format.binary64 a b) (rounded (x - y)) := by
  rw [sub_eq_add ha.denotes hb.denotes, sub_eq_add_neg]
  exact add_gives ha (neg_gives hb)

section Quotient

variable {m m' : ℕ}

/-- A quotient is not much smaller than its first digits tell. -/
theorem zpow_le_quotient (hm : 0 < m) (hm' : 0 < m') (e e' : ℤ) :
    2 ^ (totalExponent m e - totalExponent m' e' - 1) ≤ (m : ℚ) * 2 ^ e / (m' * 2 ^ e') := by
  have hpos : (0 : ℚ) < m' * 2 ^ e' := mul_pos (by exact_mod_cast hm') (two_zpow_pos e')
  have hle := pow_log2_le hm.ne'
  have hlt := (lt_add_one (m' : ℚ)).le.trans (lt_pow_log2 m')
  rw [le_div_iff₀ hpos, totalExponent, totalExponent,
    show (m.log2 : ℤ) + 1 + e - (m'.log2 + 1 + e') - 1 = m.log2 + e - (m'.log2 + 1 + e') by ring,
    zpow_sub₀ (by norm_num), div_mul_eq_mul_div, div_le_iff₀ (two_zpow_pos _),
    zpow_add₀ (by norm_num), zpow_add₀ (by norm_num) (_ + 1)]
  have hfirst : (2 : ℚ) ^ (m.log2 : ℤ) * 2 ^ e ≤ m * 2 ^ e :=
    mul_le_mul_of_nonneg_right hle (two_zpow_pos e).le
  have hsecond : (m' : ℚ) * 2 ^ e' ≤ 2 ^ ((m'.log2 : ℤ) + 1) * 2 ^ e' :=
    mul_le_mul_of_nonneg_right hlt (two_zpow_pos e').le
  exact mul_le_mul hfirst hsecond hpos.le (mul_pos (by exact_mod_cast hm) (two_zpow_pos e)).le

/-- **A quotient of mantissas is calculated with enough digits.** -/
theorem divCore_gives (s : Sign) (hm : 0 < m) (hm' : 0 < m') (e e' : ℤ) :
    let core := divCore Format.binary64 m e m' e'
    Gives (UnpackedFloat.roundWithAccuracy Format.binary64 s core.1 core.2.1 core.2.2)
      (signed s (rounded (m * 2 ^ e / (m' * 2 ^ e')))) := by
  intro core
  have hquotient := zpow_le_quotient hm hm' e e'
  generalize hdigits : totalExponent m e - totalExponent m' e' = digits at hquotient
  generalize htarget : min (e - e') (max (digits - 53) (-1074)) = target
  obtain ⟨k, hk⟩ := Int.eq_ofNat_of_zero_le
    (sub_nonneg.mpr (show target ≤ e - e' by omega))
  have hcore : core = ((m <<< k) / m', target, accuracyOfFraction ((m <<< k) % m') m') := by
    simp only [core, divCore, hdigits, targetExponent_eq, htarget, hk, Int.toNat_natCast]
  rw [hcore]
  dsimp only
  have hrepresents := represents_fraction (m <<< k / m') (m <<< k % m') (Nat.mod_lt _ hm')
  have hpos : (0 : ℚ) < m' := by exact_mod_cast hm'
  have hsplit : ((m <<< k / m' : ℕ) : ℚ) + (m <<< k % m' : ℕ) / m' = (m <<< k : ℕ) / m' := by
    rw [eq_div_iff hpos.ne', add_mul, div_mul_cancel₀ _ hpos.ne']
    exact_mod_cast Nat.div_add_mod' (m <<< k) m'
  have hvalue : ((m <<< k : ℕ) : ℚ) / m' * 2 ^ target = m * 2 ^ e / (m' * 2 ^ e') := by
    rw [← shiftLeft_mul_zpow m e k, show e - k = target + e' by omega, zpow_add₀ (by norm_num)]
    have := two_zpow_pos e'
    field_simp
  rw [hsplit] at hrepresents
  have hshifted : (0 : ℚ) < (m <<< k : ℕ) := by
    rw [Nat.shiftLeft_eq]
    exact_mod_cast Nat.mul_pos hm (Nat.two_pow_pos k)
  rw [← hvalue]
  rw [← hvalue] at hquotient
  refine roundWithAccuracy_gives s hrepresents (div_pos hshifted hpos) ?_ ?_
  · -- above the least steps the quotient has 53 digits at least
    rcases le_or_gt target (-1074) with hle | hlt
    · exact Or.inr hle
    · left
      have hone : (1 : ℚ) ≤ (m <<< k : ℕ) / m' := by
        have hle : (1 : ℚ) * 2 ^ target ≤ 2 ^ (digits - 1) := by
          rw [one_mul]
          exact zpow_le_zpow_right₀ (by norm_num) (by omega)
        exact le_of_mul_le_mul_right (hle.trans hquotient) (two_zpow_pos target)
      rw [one_le_div hpos] at hone
      have hle : m' ≤ m <<< k := by exact_mod_cast hone
      exact (Nat.div_pos hle hm').ne'
  · have hpos' : (0 : ℚ) < (m <<< k : ℕ) / m' * 2 ^ target :=
      mul_pos (div_pos hshifted hpos) (two_zpow_pos target)
    have hlog := (Int.zpow_le_iff_le_log (b := 2) (by norm_num) hpos').mp (by simpa using hquotient)
    rw [step, abs_of_pos hpos']
    omega

end Quotient

theorem signed_div (s s' : Sign) (p q : ℚ) :
    signed (s / s') (p / q) = signed s p / signed s' q := by
  cases s <;> cases s'
  · exact (neg_div_neg_eq p q).symm
  · exact (neg_div q p).symm
  · exact (div_neg p).symm
  · rfl

/-- **A quotient is the exact quotient, rounded.** -/
theorem div_gives (ha : Gives a x) (hb : Gives b y) (hy : y ≠ 0) :
    Gives (UnpackedFloat.div Format.binary64 a b) (rounded (x / y)) := by
  obtain ⟨-, hdenotes⟩ := ha
  obtain ⟨-, hdenotes'⟩ := hb
  cases hdenotes' with
  | zero s' => exact absurd rfl hy
  | finite s' m' e' pos' =>
    cases hdenotes with
    | zero s =>
      rw [zero_div, rounded_zero]
      exact ⟨trivial, .zero _⟩
    | finite s m e pos =>
      rw [← signed_div, ← signed_rounded]
      exact divCore_gives (s / s') pos pos' e e'

theorem signed_mul_signed (s s' : Sign) (p q : ℚ) :
    signed (s * s') (p * q) = signed s p * signed s' q := by
  cases s <;> cases s'
  · exact (neg_mul_neg p q).symm
  · exact (neg_mul p q).symm
  · exact (mul_neg p q).symm
  · rfl

/-- A product of mantissas has digits enough to be rounded. -/
theorem product_le_step {m m' : ℕ} {e e' : ℤ} {pos : 0 < m} {pos' : 0 < m'} {s s' : Sign}
    (h : Canonical (.finite s m e pos)) (h' : Canonical (.finite s' m' e' pos')) :
    e + e' ≤ step ((m * m' : ℕ) * 2 ^ (e + e')) := by
  obtain ⟨-, he, hbits⟩ := h
  obtain ⟨-, he', hbits'⟩ := h'
  rcases le_or_gt (e + e') (-1074) with hsmall | hlarge
  · exact hsmall.trans (le_step _)
  · -- one of the mantissas has all of its digits
    have hdigits : 2 ^ 52 ≤ m * m' := by
      rcases hbits with hm | rfl
      · exact hm.trans (Nat.le_mul_of_pos_right m pos')
      · exact (hbits'.resolve_right (by omega)).trans (Nat.le_mul_of_pos_left m' pos)
    have hle : (2 : ℚ) ^ (52 + (e + e')) ≤ (m * m' : ℕ) * 2 ^ (e + e') := by
      rw [zpow_add₀ (by norm_num)]
      exact mul_le_mul_of_nonneg_right (by exact_mod_cast hdigits) (two_zpow_pos _).le
    have hpos := (two_zpow_pos (52 + (e + e'))).trans_le hle
    have hlog := (Int.zpow_le_iff_le_log (b := 2) (by norm_num) hpos).mp (by simpa using hle)
    rw [step, abs_of_pos hpos]
    omega

/-- **A product is the exact product, rounded.** -/
theorem mul_gives (ha : Gives a x) (hb : Gives b y) :
    Gives (UnpackedFloat.mul Format.binary64 a b) (rounded (x * y)) := by
  obtain ⟨hcanonical, hdenotes⟩ := ha
  obtain ⟨hcanonical', hdenotes'⟩ := hb
  cases hdenotes with
  | zero s =>
    rw [zero_mul, rounded_zero]
    cases hdenotes' with
    | zero s' => exact ⟨trivial, .zero _⟩
    | finite s' m' e' pos' => exact ⟨trivial, .zero _⟩
  | finite s m e pos =>
    cases hdenotes' with
    | zero s' =>
      rw [mul_zero, rounded_zero]
      exact ⟨trivial, .zero _⟩
    | finite s' m' e' pos' =>
      have hvalue : (m : ℚ) * 2 ^ e * (m' * 2 ^ e') = (m * m' : ℕ) * 2 ^ (e + e') := by
        rw [zpow_add₀ (by norm_num)]
        push_cast
        ring
      rw [← signed_mul_signed, ← signed_rounded, hvalue]
      exact roundWithAccuracy_gives (s * s') (represents_exact (m * m'))
        (by exact_mod_cast Nat.mul_pos pos pos') (Or.inl (Nat.mul_pos pos pos').ne')
        (product_le_step hcanonical hcanonical')

theorem add_infinity (hb : Denotes b y) :
    UnpackedFloat.add Format.binary64 (.infinity .positive) b = .infinity .positive := by
  cases hb <;> rfl

theorem infinity_add (ha : Denotes a x) :
    UnpackedFloat.add Format.binary64 a (.infinity .positive) = .infinity .positive := by
  cases ha <;> rfl

theorem infinity_div (hb : Denotes b y) (hy : 0 < y) :
    UnpackedFloat.div Format.binary64 (.infinity .positive) b = .infinity .positive := by
  cases hb with
  | zero s => exact absurd hy (lt_irrefl 0)
  | finite s m e pos =>
    cases s with
    | negative =>
      have hnonneg : (0 : ℚ) ≤ m * 2 ^ e := mul_nonneg m.cast_nonneg (two_zpow_pos e).le
      exact absurd hy (not_lt.mpr (neg_nonpos.mpr hnonneg))
    | positive => rfl

theorem div_infinity (ha : Denotes a x) :
    ∃ s, UnpackedFloat.div Format.binary64 a (.infinity .positive) = .zero s := by
  cases ha <;> exact ⟨_, rfl⟩

/-! ## Comparison -/

/-- Of canonical numbers the one with the larger exponent is the larger one. -/
theorem lt_of_exponent_lt {m m' : ℕ} {e e' : ℤ} (hm : m < 2 ^ 53) (he : -1074 ≤ e)
    (hbits : 2 ^ 52 ≤ m' ∨ e' = -1074) (hlt : e < e') : (m : ℚ) * 2 ^ e < m' * 2 ^ e' := by
  have hm' : 2 ^ 52 ≤ m' := hbits.resolve_right (by omega)
  calc (m : ℚ) * 2 ^ e < 2 ^ (53 : ℤ) * 2 ^ e :=
        mul_lt_mul_of_pos_right (by exact_mod_cast hm) (two_zpow_pos e)
    _ = 2 ^ (53 + e) := (zpow_add₀ (by norm_num) _ _).symm
    _ ≤ 2 ^ (52 + e') := zpow_le_zpow_right₀ (by norm_num) (by omega)
    _ = 2 ^ (52 : ℤ) * 2 ^ e' := zpow_add₀ (by norm_num) _ _
    _ ≤ m' * 2 ^ e' :=
        mul_le_mul_of_nonneg_right (by exact_mod_cast hm') (two_zpow_pos e').le

/-- Exponents are compared first, then mantissas. -/
theorem compare_magnitudes {m m' : ℕ} {e e' : ℤ} {pos : 0 < m} {pos' : 0 < m'} {s : Sign}
    (h : Canonical (.finite s m e pos)) (h' : Canonical (.finite s m' e' pos')) :
    (compare e e').then (compare m m') = cmp ((m : ℚ) * 2 ^ e) (m' * 2 ^ e') := by
  obtain ⟨hm, he, hbits⟩ := h
  obtain ⟨hm', he', hbits'⟩ := h'
  rcases lt_trichotomy e e' with hlt | rfl | hgt
  · rw [compare_lt_iff_lt.mpr hlt, (cmp_eq_lt_iff _ _).mpr (lt_of_exponent_lt hm he hbits' hlt)]
    rfl
  · rw [compare_eq_iff_eq.mpr rfl, cmp_mul_pos_right (two_zpow_pos e)]
    rcases lt_trichotomy m m' with hlt | rfl | hgt
    · rw [compare_lt_iff_lt.mpr hlt, (cmp_eq_lt_iff _ _).mpr (by exact_mod_cast hlt)]
      rfl
    · rw [compare_eq_iff_eq.mpr rfl, cmp_self_eq_eq]
      rfl
    · rw [compare_gt_iff_gt.mpr hgt, (cmp_eq_gt_iff _ _).mpr (by exact_mod_cast hgt)]
      rfl
  · rw [compare_gt_iff_gt.mpr hgt, (cmp_eq_gt_iff _ _).mpr (lt_of_exponent_lt hm' he' hbits hgt)]
    rfl

theorem signed_pos {m : ℕ} (hm : 0 < m) (e : ℤ) : 0 < signed .positive (m * 2 ^ e) :=
  mul_pos (by exact_mod_cast hm) (two_zpow_pos e)

theorem signed_neg {m : ℕ} (hm : 0 < m) (e : ℤ) : signed .negative (m * 2 ^ e) < 0 :=
  neg_neg_of_pos (signed_pos hm e)

/-- **A comparison compares numbers.** -/
theorem compare_gives (ha : Gives a x) (hb : Gives b y) : a.compare b = some (cmp x y) := by
  obtain ⟨hcanonical, hdenotes⟩ := ha
  obtain ⟨hcanonical', hdenotes'⟩ := hb
  cases hdenotes with
  | zero s =>
    cases hdenotes' with
    | zero s' => rw [cmp_self_eq_eq]; rfl
    | finite s' m' e' pos' =>
      cases s' with
      | negative => rw [(cmp_eq_gt_iff _ _).mpr (signed_neg pos' e')]; rfl
      | positive => rw [(cmp_eq_lt_iff _ _).mpr (signed_pos pos' e')]; rfl
  | finite s m e pos =>
    cases hdenotes' with
    | zero s' =>
      cases s with
      | negative => rw [(cmp_eq_lt_iff _ _).mpr (signed_neg pos e)]; rfl
      | positive => rw [(cmp_eq_gt_iff _ _).mpr (signed_pos pos e)]; rfl
    | finite s' m' e' pos' =>
      cases s <;> cases s'
      · -- of two negative numbers the one that is longer is the smaller one
        have hswap : cmp (signed .negative (m * 2 ^ e)) (signed .negative (m' * 2 ^ e')) =
            (cmp ((m : ℚ) * 2 ^ e) (m' * 2 ^ e')).swap := by
          rw [cmp_swap]
          simp [signed, cmp, cmpUsing]
        rw [hswap, ← compare_magnitudes hcanonical hcanonical']
        rfl
      · rw [(cmp_eq_lt_iff _ _).mpr ((signed_neg pos e).trans (signed_pos pos' e'))]
        rfl
      · rw [(cmp_eq_gt_iff _ _).mpr ((signed_neg pos' e').trans (signed_pos pos e))]
        rfl
      · rw [signed, signed, ← compare_magnitudes hcanonical hcanonical']
        rfl

end SynthData.Binary64
