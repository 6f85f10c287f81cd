import SynthData.Data.Basic
import SynthData.Decimal.Text
import SynthData.Text.Basic

/-!
# Numbers and dates in TOML

The scalars of TOML that are not texts or truth values.
-/

namespace SynthData.Toml

/-! ## Numbers

Integers have 64 bits and are written in base ten, with an optional sign and no superfluous zeros,
or without a sign in base sixteen, eight or two. Doubles have a fraction or an exponent, or are
infinite or no numbers. Single underscores may stand between digits.

A double too large for its format is an error, but a negative one counts as infinite.
-/

open Text Reader

/-- Digits of a base, with underscores between some of them. -/
def digitsIn (base : Nat) : Reader (List Char) := do
  let digit := satisfy fun c => (digitIn? base c).isSome
  let first ← digit
  let others ← many (do let _ ← optional (char '_'); digit)
  return first :: others

/-- A sign; whether it is a minus. -/
def sign : Reader Bool :=
  (do char '-'; return true) <|> (do char '+'; return false) <|> pure false

/-- The digits of a whole number: a zero alone, or digits of which the first is not zero. -/
def wholeDigits : Reader (List Char) := do
  let first ← satisfy isDigit
  if first = '0' then return [first]
  let others ← many (do let _ ← optional (char '_'); satisfy isDigit)
  return first :: others

/-- A whole number after the mark of its base. -/
def marked (mark : Char) (base : Nat) : Reader Int := do
  word ['0', mark]
  let ds ← digitsIn base
  return valueIn base ds

/-- A whole number in base ten. -/
def decimal : Reader Int := do
  let negative ← sign
  let ds ← wholeDigits
  let n := Int.ofNat (digitsValue ds)
  return if negative then -n else n

/-- A whole number of 64 bits. -/
def integer : Reader Data := do
  let n ← marked 'x' 16 <|> marked 'o' 8 <|> marked 'b' 2 <|> decimal
  guard (Data.isLong n)
  return .integer n

/-- The fraction of a double with its point. -/
def fraction : Reader (List Char) := do
  char '.'
  let ds ← digitsIn 10
  return '.' :: ds

/-- The exponent of a double with its mark. -/
def exponent : Reader (List Char) := do
  char 'e' <|> char 'E'
  let negative ← sign
  let ds ← digitsIn 10
  return (if negative then ['e', '-'] else ['e']) ++ ds

/-- The fraction or the exponent of a double, or both. -/
def fractionOrExponent : Reader (List Char) :=
  (do let f ← fraction; let e ← optional exponent; return f ++ e.getD []) <|> exponent

/-- A double written in digits. -/
def digitFloat : Reader Double := do
  let negative ← sign
  let whole ← wholeDigits
  let rest ← fractionOrExponent
  let x ← lift (Decimal.readChars? ((if negative then ['-'] else []) ++ whole ++ rest))
  guard (negative || x.toFloat.isFinite)
  return x

/-- A double that is infinite or no number. -/
def wordFloat : Reader Double := do
  let negative ← sign
  let start := if negative then ['-'] else []
  (do word ['i', 'n', 'f']; lift (Decimal.readChars? (start ++ ['i', 'n', 'f']))) <|>
    (do word ['n', 'a', 'n']; lift (Decimal.readChars? (start ++ ['n', 'a', 'n'])))

/-- A double. -/
def float : Reader Data := do
  let x ← digitFloat <|> wordFloat
  return .float x

/-! ## Dates and times

A date, a time of day, or both with an optional distance from universal time. No other part of a
configuration needs them, so they are kept as texts in a normal form: the letter `T` between date
and time, and a fraction without zeros at its end.
-/

open Text Reader

/-- A number of a certain count of digits and within bounds, both included. -/
def fixed (count low high : Nat) : Reader Nat := fun cs =>
  let ds := cs.take count
  let n := digitsValue ds
  if ds.length = count && ds.all isDigit && decide (low ≤ n ∧ n ≤ high) then
    some (n, cs.drop count)
  else none

/-- A date. -/
def dateText : Reader String := do
  let year ← fixed 4 0 9999
  char '-'
  let month ← fixed 2 1 12
  char '-'
  let day ← fixed 2 1 (Calendar.monthLength year month)
  return padded 4 year ++ "-" ++ padded 2 month ++ "-" ++ padded 2 day

/-- The fraction of a second: nine digits of it count, without the zeros at their end. -/
def fractionPart : Reader String := do
  char '.'
  let ds ← takeWhile1 isDigit
  let kept := ((ds.take 9).reverse.dropWhile (· == '0')).reverse
  return if kept.isEmpty then "" else "." ++ String.ofList kept

/-- A time of day, in which the minute may have a sixty-first second. -/
def timeText : Reader String := do
  let hour ← fixed 2 0 23
  char ':'
  let minute ← fixed 2 0 59
  char ':'
  let second ← fixed 2 0 60
  let part ← optional fractionPart
  return padded 2 hour ++ ":" ++ padded 2 minute ++ ":" ++ padded 2 second ++ part.getD ""

/-- The distance from universal time. -/
def offsetText : Reader String :=
  (do let _ ← satisfy fun c => c = 'Z' || c = 'z'; return "Z") <|> do
    let mark ← satisfy fun c => c = '+' || c = '-'
    let hours ← fixed 2 0 23
    char ':'
    let minutes ← fixed 2 0 59
    let mark := if hours = 0 ∧ minutes = 0 then '+' else mark
    return String.singleton mark ++ padded 2 hours ++ ":" ++ padded 2 minutes

/-- A time after a date, with the mark between them. -/
def timeAfterDate : Reader String := do
  let _ ← satisfy fun c => c = 'T' || c = 't' || c = ' '
  let time ← timeText
  let offset ← optional offsetText
  return "T" ++ time ++ offset.getD ""

/-- The key under which a date or time is found as a table with one entry. -/
def momentKey : String := "$__toml_private_datetime"

/-- A date, a time, or both. -/
def moment : Reader Data := do
  let s ← (do let d ← dateText; let t ← optional timeAfterDate; return d ++ t.getD "") <|> timeText
  return .table [(momentKey, .text s)]

end SynthData.Toml
