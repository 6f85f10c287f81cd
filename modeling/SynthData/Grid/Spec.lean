import SynthData.Fault.Basic

/-!
# Numeric ranges and their grids

A `Spec` is a range with a granularity. Its grid holds the points `min`, `min + granularity`,
`min + 2 * granularity` and so on that do not pass `max`; numeric strategies choose grid points by
their indices.

`Spec.sampleCount` counts the points, up to the largest number of 64 bits. `Spec.valueAt` gives the
point with an index and `Spec.floorIndex?` the index of the point at or below a number.
-/

namespace SynthData

/-- The largest number of 64 bits. -/
def maxWord : Nat := UInt64.size - 1

/-- The lesser of two doubles, and the number if the other one is not a number. Of two that are
equal, as the zeros are, it is the second one. -/
def lesser (a b : Float) : Float :=
  if b.isNaN then a else if a < b then a else b

/-- The greater of two doubles, and the number if the other one is not a number. Of two that are
equal it is the second one. -/
def greater (a b : Float) : Float :=
  if b.isNaN then a else if b < a then a else b

/-- A range of numbers of one kind, with the distance between neighbouring grid points. -/
inductive Spec where
  | long (min max granularity : Int64)
  | double (min max granularity : Float)

namespace Spec

/-- The grid of the positions of a list. -/
def indices (length : Nat) : Spec :=
  .long 0 (Int64.ofNat (length - 1)) 1

/-- The least number of the range. -/
def min : Spec → Number
  | long min _ _ => .long min
  | double min _ _ => .double min

/-- The bound above which no point lies. -/
def max : Spec → Number
  | long _ max _ => .long max
  | double _ max _ => .double max

/-- The distance between grid points. -/
def granularity : Spec → Number
  | long _ _ granularity => .long granularity
  | double _ _ granularity => .double granularity

/-- Bounds must be finite and in order, and the granularity positive and finite. -/
def validate : Spec → Except Fault Unit
  | long min max granularity =>
    if max < min then .error (.minAboveMax (.long min) (.long max))
    else if granularity ≤ 0 then .error (.granularityNotPositive (.long granularity))
    else .ok ()
  | double min max granularity =>
    if !min.isFinite || !max.isFinite then .error (.unboundedRange min max)
    else if max < min then .error (.minAboveMax (.double min) (.double max))
    else if !(0 < granularity) || !granularity.isFinite then
      .error (.granularityNotPositive (.double granularity))
    else .ok ()

/-- Two to the power of 64, as a double. -/
def wordLimit : Float := 18446744073709551616

/-- What is added to a quotient of doubles before it is rounded down, so that a quotient a little
below an integer counts as that integer. -/
def slack : Float := 1e-9

/-- The number of grid points, or the largest number of 64 bits if there are more. -/
def sampleCount : Spec → Nat
  | long min max granularity =>
    let span := (max.toInt - min.toInt).toNat
    Nat.min (span / granularity.toInt.toNat.max 1 + 1) maxWord
  | double min max granularity =>
    let steps := (max - min) / granularity + slack
    if wordLimit ≤ steps then maxWord else steps.toUInt64.toNat + 1

/-- The grid point with an index; indices past the end give `max`. -/
def valueAt (spec : Spec) (index : Nat) : Number :=
  match spec with
  | long min max granularity =>
    .long (Int64.ofInt (Min.min (min.toInt + index * granularity.toInt) max.toInt))
  | double min max granularity =>
    .double (lesser (min + (UInt64.ofNat index).toFloat * granularity) max)

/-- The index of the grid point at or below a number, if the number lies in the range. -/
def floorIndex? (spec : Spec) (x : Float) : Option Nat :=
  let (min, max, granularity) := match spec with
    | long min max granularity =>
      (Number.nearest min, Number.nearest max, Number.nearest granularity)
    | double min max granularity => (min, max, granularity)
  if !x.isFinite || x < min || max < x then none
  else
    let index := ((x - min) / granularity + slack).toUInt64.toNat
    some (Nat.min index (spec.sampleCount - 1))

end Spec
end SynthData
