import Mathlib.Order.Bounds.Basic
import SynthData.Calendar.Granularity
import SynthData.Proofs.Calendar.Numbering

/-!
# The last step of a range

The dates after `0, 1, 2, …` steps ascend as long as the calendar lasts
(`Granularity.advance?_earlier`), so those that do not pass the end of a range are the dates
up to some number of steps.  `Granularity.lastStep` finds this number: it starts
from an estimate, which is not too low because a month has at least 28 days and a year at
least 365 (`Granularity.le_number_of_advance?`), and goes back until the date does not pass
the end (`Granularity.walkBack_spec`).

So there is a date after `i` steps that does not pass the end if and only if `i` is at most
the last step (`Granularity.le_lastStep_iff`).  Every range has a last step, and it is the
greatest number of steps that does not pass the end (`Granularity.lastStep_isGreatest`).
-/
namespace SynthData

open Calendar

/-! ## Least distances -/

namespace Calendar

/-- A month of a leap year is as long as in the year 1, which is none, except February. -/
theorem monthLength_eq (year : Int) (month : Nat) :
    monthLength year month =
      monthLength 1 month + if month = 2 ∧ isLeap year = true then 1 else 0 := by
  have hcommon : isLeap 1 = false := by decide
  unfold monthLength
  split
  all_goals grind

/-- From March on a month of a leap year begins a day later. -/
theorem daysBeforeMonth_eq (year : Int) (month : Nat) :
    daysBeforeMonth year month =
      daysBeforeMonth 1 month + if 3 ≤ month ∧ isLeap year = true then 1 else 0 := by
  induction month with
  | zero => rfl
  | succ month ih =>
    by_cases hfirst : 0 < month
    · rw [daysBeforeMonth_succ year hfirst, daysBeforeMonth_succ 1 hfirst, ih,
        monthLength_eq year month]
      grind
    · obtain rfl : month = 0 := Nat.eq_zero_of_not_pos hfirst
      rfl

end Calendar

namespace Date

variable {d e f : Date}

/-- A month later is at least 28 days later. -/
theorem le_number_addMonth (h : d.addMonths? 1 = some e) : d.number + 28 ≤ e.number := by
  obtain ⟨hmonths, hday⟩ := addMonths?_eq_some h
  obtain ⟨hdfirst, hdlast⟩ := d.month_mem
  obtain ⟨hefirst, helast⟩ := e.month_mem
  have hdend := d.isDate.le_length
  have hdlength := le_monthLength d.year hdfirst hdlast
  have helength := le_monthLength e.year hefirst helast
  simp only [number]
  by_cases hlast : d.month = 12
  · have hyear : e.year = d.year + 1 := by omega
    have hmonth : e.month = 1 := by omega
    have hbefore : daysBeforeMonth (d.year + 1) 1 = 0 := rfl
    have hnext : daysBeforeMonth d.year 13 = daysBeforeMonth d.year 12 + monthLength d.year 12 :=
      rfl
    have hwhole := daysBeforeYear_succ d.year
    rw [hyear, hmonth] at hday helength ⊢
    rw [hlast] at hdlength hdend ⊢
    omega
  · have hyear : e.year = d.year := by omega
    have hmonth : e.month = d.month + 1 := by omega
    have hnext := daysBeforeMonth_succ d.year hdfirst
    rw [hyear, hmonth] at hday helength ⊢
    omega

/-- A year later is at least 365 days later. -/
theorem le_number_addYear (h : d.addMonths? 12 = some e) : d.number + 365 ≤ e.number := by
  obtain ⟨hmonths, hday⟩ := addMonths?_eq_some h
  obtain ⟨hdfirst, hdlast⟩ := d.month_mem
  obtain ⟨hefirst, helast⟩ := e.month_mem
  have hyear : e.year = d.year + 1 := by omega
  have hmonth : e.month = d.month := by omega
  have hdend := d.isDate.le_length
  have hcommon : daysBeforeMonth 1 13 = 365 := by decide
  rw [hyear, hmonth, monthLength_eq] at hday
  rw [monthLength_eq] at hdend
  simp only [number, hyear, hmonth]
  rw [daysBeforeYear_succ, daysBeforeMonth_eq d.year, daysBeforeMonth_eq (d.year + 1),
    daysBeforeMonth_eq d.year 13, hcommon]
  -- the leap day is in the year that is left, in the next one, or in neither
  grind

/-- Months are at least 28 days later, each of them. -/
theorem le_number_addMonths {months : Nat} (h : d.addMonths? months = some e) :
    d.number + 28 * months ≤ e.number := by
  induction months generalizing e with
  | zero =>
    obtain ⟨hmonth, hday⟩ := addMonths?_eq_some h
    obtain ⟨hdfirst, hdlast⟩ := d.month_mem
    obtain ⟨hefirst, helast⟩ := e.month_mem
    have hyears : e.year = d.year := by omega
    have hmonths : e.month = d.month := by omega
    have hend := d.isDate.le_length
    rw [hyears, hmonths] at hday
    have hle : d.number ≤ e.number := number_le_of_day_le (by omega) (by omega)
    omega
  | succ months ih =>
    obtain ⟨f, g, hf, hg, hle⟩ := addMonths?_add h
    have := ih hf
    have := le_number_addMonth hg
    omega

/-- Years are at least 365 days later, each of them, and the months that are left at least 28. -/
theorem le_number_addYears {years months : Nat} (h : d.addMonths? (12 * years + months) = some e) :
    d.number + 365 * years + 28 * months ≤ e.number := by
  induction years generalizing d e with
  | zero => simpa using le_number_addMonths (h : d.addMonths? (12 * 0 + months) = some e)
  | succ years ih =>
    rw [show 12 * (years + 1) + months = 12 + (12 * years + months) by omega] at h
    obtain ⟨f, g, hf, hg, hle⟩ := addMonths?_add h
    have := ih hg
    have := le_number_addYear hf
    omega

end Date

/-! ## Steps -/

namespace Granularity

variable {g : Granularity} {min max d : Date}

/-- **No step falls short of the least number of days.** -/
theorem le_number_of_advance? {steps : Nat} (h : g.advance? min steps = some d) :
    min.number + g.leastDays * steps ≤ d.number := by
  obtain ⟨e, he, hnumber⟩ := advance?_eq_some h
  have hsplit : g.monthsPerStep * steps =
      12 * (g.years.toNat * steps) + g.months.toNat * steps := by
    rw [monthsPerStep, Nat.add_mul, Nat.mul_assoc]
  rw [hsplit] at he
  have hmonths := Date.le_number_addYears he
  have hleast : g.leastDays * steps =
      365 * (g.years.toNat * steps) + 28 * (g.months.toNat * steps) + g.days.toNat * steps := by
    rw [leastDays, Nat.add_mul, Nat.add_mul, Nat.mul_assoc, Nat.mul_assoc]
  rw [hnumber, ← Int.natCast_mul, hleast]
  omega

/-- Fewer steps lead somewhere, and to no later date. -/
theorem advance?_isSome_of_le {i j : Nat} (hij : i ≤ j) (h : g.advance? min j = some d) :
    ∃ e, g.advance? min i = some e ∧ e.number ≤ d.number := by
  obtain ⟨d', hd', hd⟩ := Option.bind_eq_some_iff.mp h
  have hmonths := Nat.mul_le_mul_left g.monthsPerStep hij
  have hdays := Nat.mul_le_mul_left g.days.toNat hij
  obtain ⟨e', he'⟩ := Date.addMonths?_isSome_of_le hmonths hd'
  have hearlier := Date.addMonths?_le hmonths he' hd'
  have hdnumber := Date.number_addDays? hd
  obtain ⟨e, he⟩ : ∃ e, e'.addDays? (g.days.toNat * i) = some e :=
    Date.addDays?_isSome (e := d) (by omega)
  have henumber := Date.number_addDays? he
  exact ⟨e, Option.bind_eq_some_iff.mpr ⟨e', he', he⟩, by omega⟩

/-- No step at all leads to the beginning. -/
theorem advance?_zero (g : Granularity) (min : Date) :
    ∃ d, g.advance? min 0 = some d ∧ d.number = min.number := by
  obtain ⟨hfirst, hlast⟩ := min.month_mem
  have hyear := min.isDate.le_last
  obtain ⟨e, he⟩ : ∃ e, min.addMonths? (g.monthsPerStep * 0) = some e :=
    Date.addMonths?_isSome (by omega)
  obtain ⟨hemonth, heday⟩ := Date.addMonths?_eq_some he
  obtain ⟨hefirst, helast⟩ := e.month_mem
  have hyears : e.year = min.year := by omega
  have hmonths : e.month = min.month := by omega
  have hend := min.isDate.le_length
  rw [hyears, hmonths, Nat.min_eq_left hend] at heday
  have hnumber : e.number = min.number := by simp only [Date.number, hyears, hmonths, heday]
  obtain ⟨d, hd⟩ : ∃ d, e.addDays? (g.days.toNat * 0) = some d :=
    Date.addDays?_isSome (e := min) (by omega)
  have := Date.number_addDays? hd
  exact ⟨d, Option.bind_eq_some_iff.mpr ⟨e, he, hd⟩, by omega⟩

/-! ## Steps in words -/

/-- The date after a number of steps, where months and days are counted in words of 64 bits and
months are added in words of 32 bits. -/
def advanceInWords? (g : Granularity) (start : Date) (steps : Nat) : Option Date :=
  if g.monthsPerStep * steps < UInt64.size ∧ g.days.toNat * steps < UInt64.size ∧
      g.monthsPerStep * steps < UInt32.size then g.advance? start steps
  else none

/-- **Words are long enough for the calendar**: what leaves them leads out of it. -/
theorem advanceInWords?_eq (g : Granularity) (start : Date) (steps : Nat) :
    g.advanceInWords? start steps = g.advance? start steps := by
  unfold advanceInWords?
  by_cases hwords : g.monthsPerStep * steps < UInt64.size ∧ g.days.toNat * steps < UInt64.size ∧
      g.monthsPerStep * steps < UInt32.size
  · rw [if_pos hwords]
  · rw [if_neg hwords]
    cases hd : g.advance? start steps with
    | none => rfl
    | some d =>
      obtain ⟨e, he, hdays⟩ := advance?_eq_some hd
      have hmonths := Date.le_number_addMonths he
      have hlong : UInt32.size = 4294967296 := rfl
      have hlonger : UInt64.size = 18446744073709551616 := rfl
      have := e.number_sub_lt start
      have := d.number_sub_lt e
      rw [hlong, hlonger] at hwords
      omega

/-- **Fewer steps lead to an earlier date**, if more of them lead to a date at all: the calendar
has no gap on the way, and no end of a month holds the dates up.  Words are long enough for all
these dates. -/
theorem advance?_earlier {start later : Date} (hg : g.isZero = false) {i j : Nat} (hij : i < j)
    (hlater : g.advance? start j = some later) :
    (∃ earlier, g.advance? start i = some earlier ∧ earlier < later) ∧
      ∀ steps, g.advanceInWords? start steps = g.advance? start steps := by
  obtain ⟨earlier, hearlier, -⟩ := advance?_isSome_of_le (Nat.le_of_lt hij) hlater
  exact ⟨⟨earlier, hearlier, advance?_lt hg hij hearlier hlater⟩, g.advanceInWords?_eq start⟩

/-- A month and a day from the end of September of the calendar's last year on: the third step
leads out of the calendar, and before it there are the last days of October and early December. -/
theorem advance?_earlier_lastYear :
    let step : Granularity := ⟨0, 1, 1⟩
    let start : Date := ⟨262142, 9, 30, by decide⟩
    let later : Date := ⟨262142, 12, 2, by decide⟩
    step.isZero = false ∧ step.advance? start 3 = none ∧ step.advance? start 2 = some later ∧
      (∃ earlier, step.advance? start 1 = some earlier ∧ earlier < later) ∧
      ∀ steps, step.advanceInWords? start steps = step.advance? start steps := by
  intro step start later
  have hzero : step.isZero = false := by decide
  have hend : step.advance? start 3 = none := by decide +kernel
  have hlater : step.advance? start 2 = some later := by decide +kernel
  exact ⟨hzero, hend, hlater, advance?_earlier hzero (by decide) hlater⟩

/-! ## The search for the last step -/

/-- The numbers of steps that do not lead past the end of a range. -/
def Reaches (g : Granularity) (min max : Date) (steps : Nat) : Prop :=
  ∃ d, g.advance? min steps = some d ∧ d ≤ max

theorem passes_eq_false_iff {steps : Nat} :
    g.passes min max steps = false ↔ g.Reaches min max steps := by
  unfold passes Reaches
  rcases g.advance? min steps with _ | d
  · simp
  · simp [Date.le_iff, Date.lt_iff]

/-- Going back ends where the date does not pass the end, having left out only steps that do. -/
theorem walkBack_spec (g : Granularity) (min max : Date) (steps : Nat) :
    (g.walkBack min max steps = 0 ∨ g.Reaches min max (g.walkBack min max steps)) ∧
      ∀ i, g.Reaches min max i → i ≤ steps → i ≤ g.walkBack min max steps := by
  induction steps with
  | zero => exact ⟨Or.inl rfl, fun i _ hi => hi⟩
  | succ steps ih =>
    unfold walkBack
    split
    · rename_i hpasses
      refine ⟨ih.1, fun i hreaches hi => ih.2 i hreaches ?_⟩
      have hne : i ≠ steps + 1 := by
        rintro rfl
        rw [passes_eq_false_iff.mpr hreaches] at hpasses
        cases hpasses
      omega
    · rename_i hpasses
      exact ⟨Or.inr (passes_eq_false_iff.mp (by simpa using hpasses)), fun i _ hi => hi⟩

theorem leastDays_pos (h : g.isZero = false) : 0 < g.leastDays := by
  have := pos_of_not_isZero h
  simp only [leastDays, monthsPerStep] at this ⊢
  omega

/-- **The last step is exact**: the numbers of steps that do not lead past the end are those up
to the last one. -/
theorem le_lastStep_iff {last : Nat} (h : g.lastStep min max = .ok last) (steps : Nat) :
    steps ≤ last ↔ g.Reaches min max steps := by
  unfold lastStep at h
  split at h
  · cases h
  · rename_i hzero
    split at h
    · cases h
    · rename_i hrange
      obtain rfl := Except.ok.inj h
      have hle : min.number ≤ max.number := Int.not_lt.mp hrange
      obtain ⟨hlast, hall⟩ := g.walkBack_spec min max
        ((max.number - min.number).toNat / g.leastDays)
      constructor
      · intro hsteps
        obtain ⟨d, hd, hdmax⟩ : g.Reaches min max
            (g.walkBack min max ((max.number - min.number).toNat / g.leastDays)) := by
          rcases hlast with hnone | hreaches
          · rw [hnone]
            obtain ⟨d, hd, hnumber⟩ := g.advance?_zero min
            exact ⟨d, hd, by rw [Date.le_iff]; omega⟩
          · exact hreaches
        obtain ⟨e, he, hearlier⟩ := advance?_isSome_of_le hsteps hd
        exact ⟨e, he, Int.le_trans hearlier hdmax⟩
      · intro hreaches
        refine hall steps hreaches ?_
        obtain ⟨d, hd, hdmax⟩ := hreaches
        rw [Date.le_iff] at hdmax
        have hpos := leastDays_pos (by simpa using hzero : g.isZero = false)
        have hleast := le_number_of_advance? hd
        rw [Nat.le_div_iff_mul_le hpos, Nat.mul_comm]
        omega

/-- How the search goes back: one number of steps after the other, as long as they pass the end. -/
theorem walkBack_turns (g : Granularity) (min max : Date) (steps : Nat) :
    ∃ turns, g.walkBack min max steps + turns = steps ∧
      ∀ k, k < turns → g.passes min max (steps - k) = true := by
  induction steps with
  | zero => exact ⟨0, rfl, nofun⟩
  | succ steps ih =>
    unfold walkBack
    by_cases hpasses : g.passes min max (steps + 1) = true
    · obtain ⟨turns, hturns, hbefore⟩ := ih
      rw [if_pos hpasses]
      refine ⟨turns + 1, by omega, ?_⟩
      intro k hk
      cases k with
      | zero => exact hpasses
      | succ k =>
        rw [Nat.add_sub_add_right]
        exact hbefore k (by omega)
    · rw [if_neg hpasses]
      exact ⟨0, rfl, nofun⟩

theorem lastStep_eq_walkBack (hg : g.isZero = false) (h : min ≤ max) :
    g.lastStep min max =
      .ok (g.walkBack min max ((max.number - min.number).toNat / g.leastDays)) := by
  have hrange : ¬ max < min := Int.not_lt.mpr h
  rw [lastStep, hg, if_neg hrange]
  rfl

/-- **Every range has a last step**, unless the step is empty, and it is the greatest number of
steps whose date exists and does not pass the end.  The search for it ends: from the estimate it
takes as many turns back as there are numbers of steps above the last one, each of which passes. -/
theorem lastStep_isGreatest (hg : g.isZero = false) (h : min ≤ max) :
    ∃ last, g.lastStep min max = .ok last ∧
      IsGreatest {steps | ∃ d, g.advance? min steps = some d ∧ d ≤ max} last ∧
      ∃ turns, last + turns = (max.number - min.number).toNat / g.leastDays ∧
        ∀ k, k < turns → g.passes min max (last + turns - k) = true := by
  have hlast := lastStep_eq_walkBack hg h
  obtain ⟨turns, hturns, hpasses⟩ :=
    g.walkBack_turns min max ((max.number - min.number).toNat / g.leastDays)
  refine ⟨_, hlast, ?_, turns, hturns, ?_⟩
  · constructor
    · exact (le_lastStep_iff hlast _).mp (Nat.le_refl _)
    · intro steps hsteps
      exact (le_lastStep_iff hlast steps).mpr hsteps
  · intro k hk
    rw [hturns]
    exact hpasses k hk

/-- Months from the end of January 2023 on: the fourteenth ends a day too late, and the estimate
of 28 days for each of them is one month higher still. -/
theorem lastStep_isGreatest_monthEnds :
    let monthly : Granularity := ⟨0, 1, 0⟩
    let min : Date := ⟨2023, 1, 31, by decide⟩
    let max : Date := ⟨2024, 3, 30, by decide⟩
    monthly.isZero = false ∧ min ≤ max ∧ monthly.lastStep min max = .ok 13 ∧
      ∃ last, monthly.lastStep min max = .ok last ∧
        IsGreatest {steps | ∃ d, monthly.advance? min steps = some d ∧ d ≤ max} last ∧
        ∃ turns, last + turns = (max.number - min.number).toNat / monthly.leastDays ∧
          ∀ k, k < turns → monthly.passes min max (last + turns - k) = true := by
  intro monthly min max
  have hzero : monthly.isZero = false := by decide
  have hrange : min ≤ max := by decide
  have hlast :
      monthly.walkBack min max ((max.number - min.number).toNat / monthly.leastDays) = 13 := by
    decide +kernel
  exact ⟨hzero, hrange, (lastStep_eq_walkBack hzero hrange).trans (congrArg Except.ok hlast),
    lastStep_isGreatest hzero hrange⟩

end Granularity
end SynthData
