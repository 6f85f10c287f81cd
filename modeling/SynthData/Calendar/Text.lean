import SynthData.Calendar.Basic
import SynthData.Text.Basic

/-!
# Dates and times as text

Writing: `YYYY-MM-DD`, with a sign on years before 0 or after 9999, and `HH:MM:SS` with a fraction
of three, six or nine digits where the second is not whole.

Reading takes the parts in the same order and allows blanks around each of them. Only a signed year
may have more than four digits, months and days may have one digit, a time of day may leave its
seconds out, and of a fraction nine digits count.
-/

namespace SynthData

open Text

namespace Date

/-- The year: four digits, or a sign and at least four digits. -/
def yearText (year : Int) : String :=
  if 0 ≤ year ∧ year ≤ 9999 then padded 4 year.toNat
  else (if year < 0 then "-" else "+") ++ padded 4 year.natAbs

/-- A date as `YYYY-MM-DD`. -/
def text (d : Date) : String :=
  yearText d.year ++ "-" ++ padded 2 d.month ++ "-" ++ padded 2 d.day

end Date

namespace TimeOfDay

/-- The fraction of a second: nothing, or a point and three, six or nine digits. -/
def fractionText (nanos : Nat) : String :=
  if nanos = 0 then ""
  else if nanos % 1000000 = 0 then "." ++ padded 3 (nanos / 1000000)
  else if nanos % 1000 = 0 then "." ++ padded 6 (nanos / 1000)
  else "." ++ padded 9 nanos

/-- A time as `HH:MM:SS` with an optional fraction. The leap second has number 60. -/
def text (t : TimeOfDay) : String :=
  let leap := t.nanos / nanosPerSecond
  padded 2 (t.seconds / 3600) ++ ":" ++ padded 2 (t.seconds / 60 % 60) ++ ":" ++
    padded 2 (t.seconds % 60 + leap) ++ fractionText (t.nanos % nanosPerSecond)

end TimeOfDay

namespace DateTime

/-- A date-time as date and time with a blank between them. -/
def text (d : DateTime) : String :=
  d.date.text ++ " " ++ d.time.text

/-- A date-time as date and time with the letter `T` between them. -/
def isoText (d : DateTime) : String :=
  d.date.text ++ "T" ++ d.time.text

end DateTime

namespace Calendar

/-- Between one and `most` digits at the front, after any blanks, as a number. -/
def readNumber? (most : Nat) (cs : List Char) : Option (Nat × List Char) :=
  let cs := dropBlanks cs
  let ds := (spanDigits (cs.take most)).1
  if ds.isEmpty then none else some (digitsValue ds, cs.drop ds.length)

/-- A year at the front: up to four digits, or a sign and any number of them. -/
def readYear? (cs : List Char) : Option (Int × List Char) :=
  let cs := dropBlanks cs
  let signed (sign : Int) (rest : List Char) : Option (Int × List Char) :=
    let (ds, rest) := spanDigits rest
    if ds.isEmpty then none else some (sign * digitsValue ds, rest)
  match cs with
  | '-' :: rest => signed (-1) rest
  | '+' :: rest => signed 1 rest
  | _ => (readNumber? 4 cs).map fun (n, rest) => (Int.ofNat n, rest)

/-- A mark at the front, after any blanks. -/
def readMark? (mark : Char) (cs : List Char) : Option (List Char) :=
  match dropBlanks cs with
  | c :: rest => if c = mark then some rest else none
  | [] => none

/-- The fraction of a second at the front, in nanoseconds: none without a point, and the digits
after the ninth are passed over. -/
def readFraction? : List Char → Option (Nat × List Char)
  | '.' :: rest =>
    let (ds, rest) := spanDigits rest
    let ds := ds.take 9
    if ds.isEmpty then none else some (digitsValue ds * Nat.pow 10 (9 - ds.length), rest)
  | cs => some (0, cs)

/-- A date at the front. -/
def readDate? (cs : List Char) : Option (Date × List Char) := do
  let (year, cs) ← readYear? cs
  let cs ← readMark? '-' cs
  let (month, cs) ← readNumber? 2 cs
  let cs ← readMark? '-' cs
  let (day, cs) ← readNumber? 2 cs
  let date ← Date.ofYmd? year month day
  return (date, cs)

/-- The seconds of a time with their fraction, after a colon. -/
def readSeconds? (cs : List Char) : Option ((Nat × Nat) × List Char) := do
  let cs ← readMark? ':' cs
  let (second, cs) ← readNumber? 2 cs
  let (nanos, cs) ← readFraction? cs
  return ((second, nanos), cs)

/-- The hour and the minute of a time. -/
def readHourMinute? (cs : List Char) : Option ((Nat × Nat) × List Char) := do
  let (hour, cs) ← readNumber? 2 cs
  let cs ← readMark? ':' cs
  let (minute, cs) ← readNumber? 2 cs
  return ((hour, minute), cs)

end Calendar

open Calendar

/-- The date that the whole text denotes. -/
def Date.read? (s : String) : Option Date := do
  let (date, rest) ← readDate? s.toList
  if (dropBlanks rest).isEmpty then some date else none

/-- The time of day that the whole text denotes. The seconds may be missing. -/
def TimeOfDay.read? (s : String) : Option TimeOfDay := do
  let ((hour, minute), rest) ← readHourMinute? s.toList
  let ((second, nanos), rest) := (readSeconds? rest).getD ((0, 0), rest)
  if (dropBlanks rest).isEmpty then TimeOfDay.ofParts? hour minute second nanos else none

/-- The date-time that the whole text denotes: a date, the letter `T` and a time with seconds. -/
def DateTime.read? (s : String) : Option DateTime := do
  let (date, rest) ← readDate? s.toList
  let rest ← readMark? 'T' rest
  let ((hour, minute), rest) ← readHourMinute? rest
  let ((second, nanos), rest) ← readSeconds? rest
  let time ← TimeOfDay.ofParts? hour minute second nanos
  if (dropBlanks rest).isEmpty then some ⟨date, time⟩ else none

end SynthData
