import SynthData.Decimal.Binary
import SynthData.Text.Basic

/-!
# Doubles as text

Doubles are written with the fewest digits that read back, in one of two layouts, and read from
the usual decimal and exponential forms.
-/

namespace SynthData

/-! ## The shortest decimal that reads back

Doubles are printed with the fewest digits that still identify them: of the decimals that round to
the double the one with the fewest digits is taken, and of several such the nearest. All
comparisons are made between integers.
-/

/-- The number `significand * 10 ^ exponent`. -/
structure Decimal where
  significand : Nat
  exponent : Int

namespace Decimal

/-- What to do when two decimals of the same length are equally near to the double. -/
inductive Tie where
  /-- Take the larger one. -/
  | up
  /-- Take the one with the even last digit. -/
  | even

/-- The reals that round to a positive double, as three integers in one unit `2 ^ unit`. -/
structure Window where
  low : Nat
  value : Nat
  high : Nat
  /-- Whether both ends round to the double. -/
  closed : Bool
  unit : Int

/-- The window of `mantissa * 2 ^ exponent`. Below a power of two the doubles lie twice as
dense. -/
def Window.of (mantissa : Nat) (exponent : Int) : Window :=
  let gap := if mantissa = Binary.hidden ∧ Binary.leastExponent < exponent then 1 else 2
  { low := 4 * mantissa - gap
    value := 4 * mantissa
    high := 4 * mantissa + 2
    closed := mantissa % 2 = 0
    unit := exponent - 2 }

/-- Factors that bring decimals of step `10 ^ step` and window units to one scale: the first is
for the window, the second for the decimal. -/
def Window.factors (w : Window) (step : Int) : Nat × Nat :=
  let up := Nat.pow 2 w.unit.toNat * Nat.pow 10 (-step).toNat
  let down := Nat.pow 2 (-w.unit).toNat * Nat.pow 10 step.toNat
  (up, down)

/-- The nearest multiple of `10 ^ step` in the window, if there is one. -/
def Window.nearest? (w : Window) (tie : Tie) (step : Int) : Option Nat :=
  let (up, down) := w.factors step
  let value := w.value * up
  let below := value / down
  let above := below + 1
  let inside (d : Nat) : Bool :=
    if w.closed then w.low * up ≤ d * down && d * down ≤ w.high * up
    else w.low * up < d * down && d * down < w.high * up
  let toBelow := value - below * down
  let toAbove := above * down - value
  match inside below && below != 0, inside above with
  | false, false => none
  | true, false => some below
  | false, true => some above
  | true, true =>
    if toBelow < toAbove then some below
    else if toAbove < toBelow then some above
    else match tie with
      | .up => some above
      | .even => some (if below % 2 = 0 then below else above)

/-- The exponent of the leading digit: the largest `e` with `10 ^ e` at most the value. -/
def Window.leading (w : Window) : Int :=
  let guess := (Int.ofNat w.value.log2 + w.unit) * 30103 / 100000
  let (up, down) := w.factors (guess + 1)
  if down ≤ w.value * up then guess + 1 else guess

/-- Tries steps from the leading digit downwards, at most `count` of them. -/
def Window.search (w : Window) (tie : Tie) : (count : Nat) → (step : Int) → Decimal
  | 0, step => ⟨w.value * (w.factors step).1 / (w.factors step).2, step⟩
  | count + 1, step =>
    match w.nearest? tie step with
    | some d => ⟨d, step⟩
    | none => w.search tie count (step - 1)

/-- Moves trailing zeros of the significand into the exponent, at most `count` of them. -/
def stripZeros : (count : Nat) → Decimal → Decimal
  | 0, d => d
  | count + 1, d =>
    if d.significand ≠ 0 ∧ d.significand % 10 = 0 then
      stripZeros count ⟨d.significand / 10, d.exponent + 1⟩
    else d

/-- The shortest decimal of `mantissa * 2 ^ exponent`. Seventeen digits always suffice. -/
def shortest (tie : Tie) (mantissa : Nat) (exponent : Int) : Decimal :=
  if mantissa = 0 then ⟨0, 0⟩
  else
    let w := Window.of mantissa exponent
    stripZeros 20 (w.search tie 17 w.leading)

end Decimal

/-! ## Two layouts

Two layouts of the same shortest digits. `plainText` never uses an exponent and writes whole
numbers without a point; it is used in cells and messages. `jsonText` keeps at least one decimal,
turns to an exponent for very large and very small numbers, and writes `null` for numbers that
JSON does not have.
-/

namespace Decimal

/-- Digits and a decimal point, without an exponent; whole numbers have no point. -/
def positional (d : Decimal) : String :=
  let ds := Text.digits d.significand
  if 0 ≤ d.exponent then
    String.ofList (ds ++ List.replicate d.exponent.toNat '0')
  else
    let places := (-d.exponent).toNat
    let ds := List.replicate (places + 1 - ds.length) '0' ++ ds
    let whole := ds.length - places
    String.ofList (ds.take whole ++ '.' :: ds.drop whole)

/-- One digit before the point, and an exponent that always has a sign. -/
def scientific (d : Decimal) : String :=
  let ds := Text.digits d.significand
  let exponent := d.exponent + (ds.length - 1 : Nat)
  let sign := if exponent < 0 then "-" else "+"
  String.ofList (match ds with
    | [] => []
    | [x] => [x]
    | x :: rest => x :: '.' :: rest) ++ "e" ++ sign ++ toString exponent.natAbs

end Decimal

/-- The sign of a negative number. -/
def signText (negative : Bool) : String :=
  if negative then "-" else ""

/-- A double in full: no exponent, no superfluous zeros. -/
def plainText (x : Float) : String :=
  match Binary.ofFloat x with
  | .nan => "NaN"
  | .infinite negative => signText negative ++ "inf"
  | .finite negative m e => signText negative ++ (Decimal.shortest .up m e).positional

/-- A double as JSON number: with a point or an exponent, and `null` where it is not finite. An
exponent is used from `10 ^ 16` and below `10 ^ -5`. -/
def jsonText (x : Float) : String :=
  match Binary.ofFloat x with
  | .nan => "null"
  | .infinite _ => "null"
  | .finite negative m e =>
    let d := Decimal.shortest .even m e
    let leading := d.exponent + (Text.digits d.significand).length - 1
    signText negative ++
      if m = 0 then "0.0"
      else if leading < -5 ∨ 16 ≤ leading then d.scientific
      else if 0 ≤ d.exponent then d.positional ++ ".0"
      else d.positional

/-! ## Reading

The texts of doubles: an optional sign, then `inf`, `infinity` or `nan` in any case, or digits with
at most one point and an optional exponent, at least one digit standing before or after the point.
The result is the nearest double. A sign also counts before a word, even before `nan`.
-/

namespace Decimal

/-- The nearest double to `significand * 10 ^ exponent`. Numbers far outside the range of doubles
are answered without computing the power. -/
def nearest (negative : Bool) (significand : Nat) (exponent : Int) : Double :=
  let size := exponent + (Text.digits significand).length
  if significand = 0 ∨ size < -400 then Binary.ofRatio negative 0 1
  else if 400 < size then Binary.ofRatio negative (Nat.pow 10 400) 1
  else Binary.ofRatio negative (significand * Nat.pow 10 exponent.toNat) (Nat.pow 10 (-exponent).toNat)

/-- An exponent's digits, after an optional sign, up to the end of the text. -/
def readExponent? : List Char → Option Int
  | '+' :: cs => (digitsOnly? cs).map Int.ofNat
  | '-' :: cs => (digitsOnly? cs).map fun n => -Int.ofNat n
  | cs => (digitsOnly? cs).map Int.ofNat
where
  /-- One or more digits and nothing else. -/
  digitsOnly? (cs : List Char) : Option Nat :=
    if !cs.isEmpty && cs.all Text.isDigit then some (Text.digitsValue cs) else none

/-- An unsigned decimal number with an optional exponent. -/
def readUnsigned? (negative : Bool) (cs : List Char) : Option Double :=
  let (whole, rest) := Text.spanDigits cs
  let (fraction, rest) := match rest with
    | '.' :: rest => Text.spanDigits rest
    | _ => ([], rest)
  if whole.isEmpty && fraction.isEmpty then none
  else
    let exponent? := match rest with
      | [] => some 0
      | 'e' :: rest => readExponent? rest
      | 'E' :: rest => readExponent? rest
      | _ => none
    exponent?.map fun e =>
      nearest negative (Text.digitsValue (whole ++ fraction)) (e - fraction.length)

/-- The double that the characters denote. -/
def readChars? (cs : List Char) : Option Double :=
  let (negative, body) := match cs with
    | '-' :: rest => (true, rest)
    | '+' :: rest => (false, rest)
    | _ => (false, cs)
  let word := String.ofList (body.map Char.toLower)
  if word = "inf" ∨ word = "infinity" then
    some (Binary.signed negative Binary.infinityBits)
  else if word = "nan" then some (Binary.signed negative Binary.nanBits)
  else readUnsigned? negative body

/-- The double that the text denotes. -/
def read? (s : String) : Option Double :=
  readChars? s.toList

end Decimal

end SynthData
