/-!
# Doubles as bits and as exact quantities

A value keeps a double by its bits. For everything that has to be exact, a finite double is an
integer times a power of two.
-/

namespace SynthData

/-! ## Bits

A value keeps a double by its bits. They tell the two zeros apart, and also the two signs that a
double has which is not a number. `Double.toFloat` is the double to calculate with, where all that
are not numbers are one; a double that was calculated keeps its bits on the way back.
-/

/-- A double by its bits. -/
structure Double where
  bits : UInt64
deriving DecidableEq

namespace Double

/-- The double that was calculated. -/
def ofFloat (x : Float) : Double := ⟨x.toBits⟩

/-- The double to calculate with. -/
def toFloat (d : Double) : Float := Float.ofBits d.bits

instance : Coe Float Double := ⟨ofFloat⟩

end Double

/-! ## Exact quantities

A finite double is an integer times a power of two. `Binary.ofFloat` reads that form off the bits,
and `ofRatio` goes back: it gives the double nearest to a fraction, a tie going to the even
mantissa.
-/

/-- A double taken apart. -/
inductive Binary where
  | nan
  | infinite (negative : Bool)
  /-- The number `mantissa * 2 ^ exponent`, with a sign. -/
  | finite (negative : Bool) (mantissa : Nat) (exponent : Int)

namespace Binary

/-- The bit before the fraction, which is not stored: two to the power of 52. -/
def hidden : Nat := 4503599627370496

/-- The bit that marks negative numbers: two to the power of 63. -/
def signBit : Nat := 9223372036854775808

/-- The bits of the positive infinity. -/
def infinityBits : Nat := 2047 * hidden

/-- The bits of a double that is not a number, without a sign. -/
def nanBits : Nat := infinityBits + hidden / 2

/-- The exponent of the least significant bit of the smallest doubles. -/
def leastExponent : Int := -1074

/-- The parts of a double, read off its bits. -/
def ofFloat (x : Float) : Binary :=
  let bits := x.toBits.toNat
  let negative := bits / signBit == 1
  let biased := bits / hidden % 2048
  let fraction := bits % hidden
  if biased = 2047 then
    if fraction = 0 then .infinite negative else .nan
  else if biased = 0 then .finite negative fraction leastExponent
  else .finite negative (hidden + fraction) (Int.ofNat biased - 1075)

/-- The quotient rounded to the nearest integer, a tie going to the even one. -/
def roundHalfEven (num den : Nat) : Nat :=
  let q := num / den
  let r := num % den
  if 2 * r < den then q
  else if den < 2 * r then q + 1
  else if q % 2 = 0 then q else q + 1

/-- A fraction divided by a power of two, as numerator and denominator. -/
def scaleDown (num den : Nat) (exponent : Int) : Nat × Nat :=
  if 0 ≤ exponent then (num, den * Nat.pow 2 exponent.toNat)
  else (num * Nat.pow 2 (-exponent).toNat, den)

/-- The bits of the nonnegative double nearest to `num / den`. -/
def nearestBits (num den : Nat) : Nat :=
  if num = 0 then 0
  else
    let guess := max (Int.ofNat num.log2 - Int.ofNat den.log2 - 52) leastExponent
    let (n, d) := scaleDown num den guess
    let exponent := if n < d * hidden then max (guess - 1) leastExponent else guess
    let (n, d) := scaleDown num den exponent
    let mantissa := roundHalfEven n d
    if mantissa < hidden then mantissa
    else min ((exponent + 1074).toNat * hidden + mantissa) infinityBits

/-- The double with a sign and the bits of a nonnegative one. -/
def signed (negative : Bool) (bits : Nat) : Double :=
  ⟨UInt64.ofNat (bits + if negative then signBit else 0)⟩

/-- The double nearest to `num / den`, with a sign. -/
def ofRatio (negative : Bool) (num den : Nat) : Double :=
  signed negative (nearestBits num den)

/-- The double nearest to an integer. -/
def ofInt (n : Int) : Float :=
  (ofRatio (n < 0) n.natAbs 1).toFloat

end Binary

end SynthData
