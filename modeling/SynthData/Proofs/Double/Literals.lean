import SynthData.Decimal.Text
import SynthData.Proofs.Double.Fractions
import SynthData.Proofs.Text.Numerals

/-!
# Integers as they are written

An integer is written in decimal digits, after a sign or none (`Literal`).  It is read as the
nearest double (`Literal.reads_double`), or as an infinity if it is too large
(`Literal.isFinite_double`).
-/
namespace SynthData

open Binary64 (Reads rounded limit signOf signed)

/-- An integer as it is written. -/
structure Literal where
  sign : Option Char
  digits : List Char
  sign_eq : ∀ c ∈ sign, c = '+' ∨ c = '-'
  ne_nil : digits ≠ []
  isDigit : ∀ c ∈ digits, Text.isDigit c

namespace Literal

/-- The text of the integer. -/
def chars (t : Literal) : List Char := t.sign.toList ++ t.digits

def isNegative (t : Literal) : Bool := t.sign == some '-'

/-- The integer without its sign. -/
def size (t : Literal) : ℕ := Text.digitsValue t.digits

/-- The integer that is written. -/
def toInt (t : Literal) : ℤ := if t.isNegative then -t.size else t.size

/-- The double that the integer is read as. -/
def double (t : Literal) : Double := Decimal.nearest t.isNegative t.size 0

variable (t : Literal)

/-! ## Reading -/

/-- What holds of the signs and the ten digits holds of all characters of the text. -/
theorem of_mem_chars {p : Char → Bool}
    (hp : ['+', '-', '0', '1', '2', '3', '4', '5', '6', '7', '8', '9'].all p) {c : Char}
    (h : c ∈ t.chars) : p c := by
  rw [List.all_cons, List.all_cons, Bool.and_eq_true, Bool.and_eq_true] at hp
  obtain ⟨hplus, hminus, hdigits⟩ := hp
  rcases List.mem_append.mp h with hsign | hdigit
  · rcases t.sign_eq c (by simpa using hsign) with rfl | rfl
    · exact hplus
    · exact hminus
  · exact Text.of_isDigit hdigits (t.isDigit c hdigit)

/-- No word is taken for a number. -/
theorem word_ne (word : String) (hword : ∀ c ∈ word.toList.head?, Text.isDigit c = false) :
    String.ofList (t.digits.map Char.toLower) ≠ word := by
  rintro rfl
  obtain ⟨d, ds, hd⟩ := List.exists_cons_of_ne_nil t.ne_nil
  have hdigit : Text.isDigit d.toLower :=
    Text.of_isDigit (p := fun c => Text.isDigit c.toLower) (by decide)
      (t.isDigit d (hd ▸ List.mem_cons_self))
  rw [hword d.toLower (by simp [hd])] at hdigit
  cases hdigit

theorem readUnsigned?_digits (negative : Bool) :
    Decimal.readUnsigned? negative t.digits = some (Decimal.nearest negative t.size 0) := by
  have hspan : Text.spanDigits t.digits = (t.digits, []) := by
    rw [Text.spanDigits, List.takeWhile_eq_self_iff.mpr t.isDigit,
      List.dropWhile_eq_nil_iff.mpr t.isDigit]
  have hne : t.digits.isEmpty = false := by simpa using t.ne_nil
  simp [Decimal.readUnsigned?, hspan, hne, size]

/-- **An integer is read as a double.** -/
theorem readChars?_chars : Decimal.readChars? t.chars = some t.double := by
  have hinf := t.word_ne "inf" (by simp; decide)
  have hinfinity := t.word_ne "infinity" (by simp; decide)
  have hnan := t.word_ne "nan" (by simp; decide)
  have hread := t.readUnsigned?_digits
  rw [chars]
  rcases hsign : t.sign with _ | c
  · have hnegative : t.isNegative = false := by simp [isNegative, hsign]
    obtain ⟨d, ds, hd⟩ := List.exists_cons_of_ne_nil t.ne_nil
    have hdigit := t.isDigit d (hd ▸ List.mem_cons_self)
    have hminus := Text.of_isDigit (p := (· != '-')) (by decide) hdigit
    have hplus := Text.of_isDigit (p := (· != '+')) (by decide) hdigit
    rw [bne_iff_ne] at hminus hplus
    rw [hd] at hinf hinfinity hnan hread ⊢
    simp [Decimal.readChars?, hminus, hplus, hinf, hinfinity, hnan, hread, double, hnegative,
      -String.ofList_cons, -List.map_cons]
  · rcases t.sign_eq c hsign with rfl | rfl
    · have hnegative : t.isNegative = false := by simp [isNegative, hsign]
      simp [Decimal.readChars?, hinf, hinfinity, hnan, hread, double, hnegative]
    · have hnegative : t.isNegative = true := by simp [isNegative, hsign]
      simp [Decimal.readChars?, hinf, hinfinity, hnan, hread, double, hnegative]

/-! ## The nearest double -/

theorem cast_toInt : (t.toInt : ℚ) = signed (signOf t.isNegative) t.size := by
  rw [toInt, signOf]
  split <;> simp [signed]

theorem abs_rounded_toInt : |rounded t.toInt| = rounded t.size := by
  have hnonneg : 0 ≤ rounded t.size := Binary64.rounded_nonneg t.size.cast_nonneg
  rw [cast_toInt, ← Binary64.signed_rounded, signOf]
  split
  · rw [signed, abs_neg, abs_of_nonneg hnonneg]
  · exact abs_of_nonneg hnonneg

/-- Numbers of more than 400 digits are read as one number, which has so many. -/
theorem double_eq : t.double = Binary.ofRatio t.isNegative t.size 1 ∨
    10 ^ 400 ≤ t.size ∧ t.double = Binary.ofRatio t.isNegative (Nat.pow 10 400) 1 := by
  rw [double, Decimal.nearest]
  simp only [Text.digits, Int.toNat_zero, neg_zero, zero_add]
  split
  · next hzero =>
    left
    rw [hzero.resolve_right (by omega)]
  · split
    · next hlong =>
      have hmore : ¬ (Nat.toDigits 10 t.size).length ≤ 400 := by omega
      refine Or.inr ⟨not_lt.mp fun hlt => ?_, rfl⟩
      exact hmore (Nat.toDigits_length 10 _ 400 (by norm_num) hlt)
    · left
      simp

/-- A number of more than 400 digits is too large for a double. -/
theorem limit_le_rounded {n : ℕ} (h : 10 ^ 400 ≤ n) : limit ≤ rounded n := by
  have hbits : Binary64.HasBits limit := ⟨1, 1024, by norm_num, by norm_num, by simp [limit]⟩
  have hle : limit ≤ n := by
    calc limit ≤ 2 ^ (1200 : ℤ) := zpow_le_zpow_right₀ (by norm_num) (by norm_num)
      _ = (2 ^ 3) ^ 400 := by rw [← pow_mul]; exact zpow_natCast 2 1200
      _ ≤ 10 ^ 400 := pow_le_pow_left₀ (by norm_num) (by norm_num) 400
      _ ≤ n := by exact_mod_cast h
  rw [← hbits.rounded]
  exact Binary64.rounded_mono hle

/-- **An integer is read as the nearest double.** -/
theorem reads_double (h : |rounded t.toInt| < limit) :
    Reads t.double.toFloat (rounded t.toInt) := by
  rw [abs_rounded_toInt] at h
  obtain hdouble | ⟨hlarge, -⟩ := t.double_eq
  · have hreads := Binary64.reads_ofRatio t.isNegative t.size one_pos (by simpa using h)
    rw [cast_toInt, ← Binary64.signed_rounded, hdouble]
    simpa using hreads
  · exact absurd h (not_lt.mpr (limit_le_rounded hlarge))

/-- **An integer that is too large is read as an infinity.** -/
theorem isFinite_double (h : limit ≤ |rounded t.toInt|) : t.double.toFloat.isFinite = false := by
  rw [abs_rounded_toInt] at h
  obtain hdouble | ⟨-, hdouble⟩ := t.double_eq
  · rw [hdouble]
    exact Binary64.isFinite_ofRatio t.isNegative one_pos (by simpa using h)
  · rw [hdouble]
    refine Binary64.isFinite_ofRatio t.isNegative one_pos ?_
    rw [Nat.cast_one, div_one]
    refine limit_le_rounded ?_
    -- the power is not to be computed
    generalize 400 = k
    exact le_rfl

end Literal
end SynthData
