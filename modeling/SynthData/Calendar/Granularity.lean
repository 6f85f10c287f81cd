import SynthData.Calendar.Text
import SynthData.Fault.Basic

/-!
# Calendar steps

A `Granularity` is a step of years, months and days, written `years,months,days`. The date after a
number of steps is found by adding all the months first and all the days afterwards.
-/

namespace SynthData

/-- A calendar step. -/
structure Granularity where
  years : UInt32
  months : UInt32
  days : UInt32
deriving DecidableEq

namespace Granularity

open Text

/-- The step of a single day. -/
def daily : Granularity := ⟨0, 0, 1⟩

/-- A step that leads nowhere. -/
def isZero (g : Granularity) : Bool :=
  g.years == 0 && g.months == 0 && g.days == 0

/-- The months of a step, those of its years included. -/
def monthsPerStep (g : Granularity) : Nat :=
  12 * g.years.toNat + g.months.toNat

/-- The date a number of steps after a date, if the calendar reaches so far. -/
def advance? (g : Granularity) (start : Date) (steps : Nat) : Option Date :=
  (start.addMonths? (g.monthsPerStep * steps)).bind fun d => d.addDays? (g.days.toNat * steps)

/-- A number of days that no step falls short of. -/
def leastDays (g : Granularity) : Nat :=
  365 * g.years.toNat + 28 * g.months.toNat + g.days.toNat

/-- Whether a number of steps leads past a date or past the end of the calendar. -/
def passes (g : Granularity) (min max : Date) (steps : Nat) : Bool :=
  match g.advance? min steps with
  | some d => decide (max < d)
  | none => true

/-- The largest number of steps, from a given one downwards, that does not pass `max`; zero if
there is none. -/
def walkBack (g : Granularity) (min max : Date) : Nat → Nat
  | 0 => 0
  | n + 1 => if g.passes min max (n + 1) then walkBack g min max n else n + 1

/-- The largest number of steps from `min` that does not pass `max`. -/
def lastStep (g : Granularity) (min max : Date) : Except Fault Nat :=
  if g.isZero then .error .dateGranularityZero
  else if max < min then .error (.datesReversed min max)
  else .ok (g.walkBack min max ((max.number - min.number).toNat / g.leastDays))

/-- A component of the written form. -/
def readPart (whole : String) (part : List Char) : Except Fault UInt32 :=
  match natural? part with
  | some n =>
    if n < UInt32.size then .ok (UInt32.ofNat n)
    else .error (.granularityNumber (String.ofList part) whole)
  | none => .error (.granularityNumber (String.ofList part) whole)

/-- Reads `years,months,days`; blanks around the numbers do not matter. -/
def read (s : String) : Except Fault Granularity :=
  match (splitChars ',' s.toList).map trimChars with
  | [years, months, days] => do
    let years ← readPart s years
    let months ← readPart s months
    let days ← readPart s days
    return ⟨years, months, days⟩
  | _ => .error (.granularityForm s)

/-- The written form. -/
def text (g : Granularity) : String :=
  s!"{g.years.toNat},{g.months.toNat},{g.days.toNat}"

end Granularity
end SynthData
