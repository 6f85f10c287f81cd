/-!
# Dates and times of day

The calendar that date and date-time generators count in.
-/

namespace SynthData

/-! ## Dates of the Gregorian calendar

Dates are years, months and days of the proleptic Gregorian calendar, from the year −262143 to the
year 262142. `Date.number` counts the days from the first of January of the year 1, which has the
number 1; dates are ordered by it. `Date.addMonths?` keeps the day of the month where the target
month has it and takes that month's last day otherwise; `Date.addDays?` goes through the day number.
Both answer nothing past the end of the calendar.
-/

namespace Calendar

/-- The first year of the calendar. -/
def firstYear : Int := -262143

/-- The last year of the calendar. -/
def lastYear : Int := 262142

/-- Every fourth year is a leap year, except those that begin a century not divisible by four. -/
def isLeap (year : Int) : Bool :=
  year % 4 == 0 && (year % 100 != 0 || year % 400 == 0)

/-- The length of a month, and zero for a number that names no month. -/
def monthLength (year : Int) : Nat → Nat
  | 1 => 31
  | 2 => if isLeap year then 29 else 28
  | 3 => 31
  | 4 => 30
  | 5 => 31
  | 6 => 30
  | 7 => 31
  | 8 => 31
  | 9 => 30
  | 10 => 31
  | 11 => 30
  | 12 => 31
  | _ => 0

/-- The days from the first of January of the year 1 up to the beginning of a year. -/
def daysBeforeYear (year : Int) : Int :=
  let past := year - 1
  365 * past + past / 4 - past / 100 + past / 400

/-- The days of a year before the beginning of a month. -/
def daysBeforeMonth (year : Int) : (month : Nat) → Nat
  | 0 => 0
  | 1 => 0
  | month + 2 => daysBeforeMonth year (month + 1) + monthLength year (month + 1)

/-- The year in which the day with a given number falls. -/
def yearOfDay (number : Int) : Int :=
  let guess := number * 400 / 146097 + 1
  if daysBeforeYear (guess + 1) < number then guess + 1
  else if daysBeforeYear guess < number then guess
  else guess - 1

/-- The month and the day of the month of a day of the year, counted from a given month on. The
first argument bounds the number of months tried. -/
def monthOfDay (year : Int) : (tries : Nat) → (month day : Nat) → Nat × Nat
  | 0, month, day => (month, day)
  | tries + 1, month, day =>
    if day ≤ monthLength year month then (month, day)
    else monthOfDay year tries (month + 1) (day - monthLength year month)

/-- The days that the calendar has. -/
structure IsDate (year : Int) (month day : Nat) : Prop where
  first_le : firstYear ≤ year
  le_last : year ≤ lastYear
  one_le : 1 ≤ day
  le_length : day ≤ monthLength year month

instance (year : Int) (month day : Nat) : Decidable (IsDate year month day) :=
  decidable_of_iff (firstYear ≤ year ∧ year ≤ lastYear ∧ 1 ≤ day ∧ day ≤ monthLength year month)
    ⟨fun ⟨a, b, c, d⟩ => ⟨a, b, c, d⟩, fun ⟨a, b, c, d⟩ => ⟨a, b, c, d⟩⟩

end Calendar

open Calendar

/-- A day of the calendar. -/
structure Date where
  year : Int
  month : Nat
  day : Nat
  isDate : IsDate year month day

namespace Date

/-- The date with the given year, month and day, if the calendar has it. -/
def ofYmd? (year : Int) (month day : Nat) : Option Date :=
  if h : IsDate year month day then some ⟨year, month, day, h⟩ else none

/-- The day's number: one for the first of January of the year 1, and one more each day. -/
def number (d : Date) : Int :=
  daysBeforeYear d.year + daysBeforeMonth d.year d.month + d.day

/-- The date with the given number, if the calendar has it. -/
def ofNumber? (number : Int) : Option Date :=
  let year := yearOfDay number
  let (month, day) := monthOfDay year 11 1 (number - daysBeforeYear year).toNat
  ofYmd? year month day

/-- Equal parts make equal dates. -/
theorem ext {a b : Date} (hy : a.year = b.year) (hm : a.month = b.month) (hd : a.day = b.day) :
    a = b := by
  cases a; cases b; simp_all

instance : DecidableEq Date := fun a b =>
  if h : a.year = b.year ∧ a.month = b.month ∧ a.day = b.day then
    isTrue (ext h.1 h.2.1 h.2.2)
  else isFalse fun e => h ⟨e ▸ rfl, e ▸ rfl, e ▸ rfl⟩

instance : LE Date := ⟨fun a b => a.number ≤ b.number⟩

instance : LT Date := ⟨fun a b => a.number < b.number⟩

instance (a b : Date) : Decidable (a ≤ b) := inferInstanceAs (Decidable (a.number ≤ b.number))

instance (a b : Date) : Decidable (a < b) := inferInstanceAs (Decidable (a.number < b.number))

theorem le_iff {a b : Date} : a ≤ b ↔ a.number ≤ b.number := Iff.rfl

theorem lt_iff {a b : Date} : a < b ↔ a.number < b.number := Iff.rfl

/-- The same day of a later month; the last day of that month where it is too short. -/
def addMonths? (d : Date) (months : Nat) : Option Date :=
  let total := 12 * d.year + (d.month - 1 : Nat) + months
  let year := total / 12
  let month := (total % 12).toNat + 1
  ofYmd? year month (min d.day (monthLength year month))

/-- The date a number of days later. -/
def addDays? (d : Date) (days : Nat) : Option Date :=
  ofNumber? (d.number + days)

end Date

/-! ## Times of day

A time of day counts whole seconds from midnight and nanoseconds within the second. A leap second
belongs to the minute that it ends: its nanoseconds run from one to two billion.
-/

/-- The seconds of a day. -/
def secondsPerDay : Nat := 86400

/-- A second, counted in nanoseconds. -/
def nanosPerSecond : Nat := 1000000000

/-- A time of day. -/
structure TimeOfDay where
  seconds : Nat
  nanos : Nat
  seconds_lt : seconds < secondsPerDay
  nanos_lt : nanos < 2 * nanosPerSecond

namespace TimeOfDay

/-- The time a number of whole seconds after midnight, within one day. -/
def ofSeconds? (seconds : Nat) : Option TimeOfDay :=
  if h : seconds < secondsPerDay then some ⟨seconds, 0, h, by decide⟩ else none

/-- The time with the given parts. Second 60 is the leap second. -/
def ofParts? (hour minute second nanos : Nat) : Option TimeOfDay :=
  let leap := second = 60
  let seconds := 3600 * hour + 60 * minute + if leap then 59 else second
  let nanos := if leap then nanosPerSecond + nanos else nanos
  if h : seconds < secondsPerDay ∧ nanos < 2 * nanosPerSecond then
    if hour ≤ 23 ∧ minute ≤ 59 ∧ second ≤ 60 then some ⟨seconds, nanos, h.1, h.2⟩ else none
  else none

/-- Equal parts make equal times. -/
theorem ext {a b : TimeOfDay} (hs : a.seconds = b.seconds) (hn : a.nanos = b.nanos) : a = b := by
  cases a; cases b; simp_all

instance : DecidableEq TimeOfDay := fun a b =>
  if h : a.seconds = b.seconds ∧ a.nanos = b.nanos then isTrue (ext h.1 h.2)
  else isFalse fun e => h ⟨e ▸ rfl, e ▸ rfl⟩

/-- Later times have more seconds or, in the same second, more nanoseconds. -/
instance : LT TimeOfDay :=
  ⟨fun a b => a.seconds < b.seconds ∨ (a.seconds = b.seconds ∧ a.nanos < b.nanos)⟩

instance (a b : TimeOfDay) : Decidable (a < b) :=
  inferInstanceAs
    (Decidable (a.seconds < b.seconds ∨ (a.seconds = b.seconds ∧ a.nanos < b.nanos)))

/-- A time is at most another one when it is not later. -/
instance : LE TimeOfDay := ⟨fun a b => ¬ b < a⟩

instance (a b : TimeOfDay) : Decidable (a ≤ b) := inferInstanceAs (Decidable (¬ b < a))

theorem lt_iff {a b : TimeOfDay} :
    a < b ↔ a.seconds < b.seconds ∨ (a.seconds = b.seconds ∧ a.nanos < b.nanos) := Iff.rfl

end TimeOfDay

/-- A day and a time of that day. -/
structure DateTime where
  date : Date
  time : TimeOfDay
deriving DecidableEq

end SynthData
