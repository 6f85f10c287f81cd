import SynthData.Proofs.Calendar.Steps

/-!
# Every day has a date

The day with a number is looked up in two stages: a guess at its year is put right
(`yearOfDay_spec`), and then the months of that year are gone through until the day falls
into one (`monthOfDay_length`).  Neither stage misses, so each number from the first day of
the calendar to the last one belongs to a date (`Date.ofNumber?_isSome`).

Months may be added as long as the calendar lasts (`Date.addMonths?_isSome`), in any portions:
going in two portions may lose days at the end of a month, but never gains one
(`Date.addMonths?_add`).
-/
namespace SynthData

namespace Calendar

/-- The guess at the year of a day is off by one year at most, and is put right. -/
theorem yearOfDay_spec (number : Int) :
    daysBeforeYear (yearOfDay number) < number ∧
      number ≤ daysBeforeYear (yearOfDay number + 1) := by
  unfold yearOfDay
  dsimp only
  split
  · rename_i hlater
    refine ⟨hlater, ?_⟩
    simp only [daysBeforeYear] at hlater ⊢
    omega
  · rename_i hlater
    split
    · rename_i hguess
      exact ⟨hguess, Int.not_lt.mp hlater⟩
    · rename_i hguess
      simp only [Int.sub_add_cancel]
      refine ⟨?_, Int.not_lt.mp hguess⟩
      simp only [daysBeforeYear] at hguess ⊢
      omega

/-- The twelve months have at least 28 days. -/
theorem le_monthLength (year : Int) {month : Nat} (hfirst : 1 ≤ month) (hlast : month ≤ 12) :
    28 ≤ monthLength year month := by
  unfold monthLength
  split
  all_goals grind

/-- A day of the year falls into one of its months. -/
theorem monthOfDay_length (year : Int) (tries : Nat) {month day : Nat} (hmonth : 0 < month)
    (htries : month + tries = 12) (hday : 1 ≤ day)
    (hyear : daysBeforeMonth year month + day ≤ daysBeforeMonth year 13) :
    1 ≤ (monthOfDay year tries month day).2 ∧
      (monthOfDay year tries month day).2 ≤
        monthLength year (monthOfDay year tries month day).1 := by
  induction tries generalizing month day with
  | zero =>
    obtain rfl : month = 12 := htries
    have hlast : daysBeforeMonth year 13 = daysBeforeMonth year 12 + monthLength year 12 := rfl
    refine ⟨hday, ?_⟩
    show day ≤ monthLength year 12
    omega
  | succ tries ih =>
    have hnext := daysBeforeMonth_succ year hmonth
    unfold monthOfDay
    split
    · rename_i hfits
      exact ⟨hday, hfits⟩
    · apply ih
      all_goals omega

end Calendar

open Calendar

namespace Date

variable {d e f : Date}

theorem month_mem (d : Date) : 1 ≤ d.month ∧ d.month ≤ 12 :=
  month_bounds (Nat.lt_of_lt_of_le d.isDate.one_le d.isDate.le_length)

theorem ofYmd?_isSome {year : Int} {month day : Nat} (h : IsDate year month day) :
    ∃ d, ofYmd? year month day = some d :=
  ⟨⟨year, month, day, h⟩, dif_pos h⟩

/-- **Every number of the calendar belongs to a date.** -/
theorem ofNumber?_isSome {number : Int} (hfirst : daysBeforeYear firstYear < number)
    (hlast : number ≤ daysBeforeYear (lastYear + 1)) : ∃ d, ofNumber? number = some d := by
  obtain ⟨hafter, hbefore⟩ := yearOfDay_spec number
  have hyear := daysBeforeYear_succ (yearOfDay number)
  obtain ⟨hone, hlength⟩ := monthOfDay_length (yearOfDay number) 11
    Nat.one_pos rfl (show 1 ≤ (number - daysBeforeYear (yearOfDay number)).toNat by omega)
    (by simp only [daysBeforeMonth] at hyear ⊢; omega)
  -- a year outside of the calendar would put the day there too
  have hstart : firstYear ≤ yearOfDay number := by
    apply Int.not_lt.mp
    intro hearly
    have := daysBeforeYear_mono (show yearOfDay number + 1 ≤ firstYear from hearly)
    omega
  have hend : yearOfDay number ≤ lastYear := by
    apply Int.not_lt.mp
    intro hlate
    have := daysBeforeYear_mono (show lastYear + 1 ≤ yearOfDay number from hlate)
    omega
  exact ofYmd?_isSome ⟨hstart, hend, hone, hlength⟩

/-- The number of a date is a number of the calendar. -/
theorem number_mem_calendar (d : Date) :
    daysBeforeYear firstYear < d.number ∧ d.number ≤ daysBeforeYear (lastYear + 1) := by
  obtain ⟨hafter, hbefore⟩ := d.number_mem_year
  have hfirst := daysBeforeYear_mono d.isDate.first_le
  have hlast := daysBeforeYear_mono (show d.year + 1 ≤ lastYear + 1 from
    Int.add_le_add_right d.isDate.le_last 1)
  omega

/-- Days may be added up to any date of the calendar. -/
theorem addDays?_isSome {days : Nat} (h : d.number + days ≤ e.number) :
    ∃ f, d.addDays? days = some f := by
  have hfirst := d.number_mem_calendar.1
  have hlast := e.number_mem_calendar.2
  exact ofNumber?_isSome (by omega) (by omega)

/-! ## Months -/

/-- What adding months comes to: the month is counted on, and the day is kept where the month
has it. -/
theorem addMonths?_eq_some {months : Nat} (h : d.addMonths? months = some e) :
    12 * e.year + e.month = 12 * d.year + d.month + months ∧
      e.day = min d.day (monthLength e.year e.month) := by
  obtain ⟨hfirst, -⟩ := d.month_mem
  obtain ⟨hyear, hmonth, hday⟩ := ofYmd?_eq_some h
  rw [hday, hyear, hmonth]
  exact ⟨by omega, rfl⟩

/-- **Months may be added as long as the calendar lasts.** -/
theorem addMonths?_isSome {months : Nat}
    (h : 12 * d.year + d.month + months ≤ 12 * lastYear + 12) :
    ∃ e, d.addMonths? months = some e := by
  obtain ⟨hfirst, hlast⟩ := d.month_mem
  have hstart := d.isDate.first_le
  have hone := d.isDate.one_le
  have hlength := le_monthLength ((12 * d.year + (d.month - 1 : Nat) + months) / 12)
    (show 1 ≤ ((12 * d.year + (d.month - 1 : Nat) + months) % 12).toNat + 1 by omega) (by omega)
  exact ofYmd?_isSome ⟨by omega, by omega, Nat.le_min.mpr ⟨hone, by omega⟩, Nat.min_le_right _ _⟩

/-- Fewer months may be added where more may. -/
theorem addMonths?_isSome_of_le {i j : Nat} (hij : i ≤ j) (h : d.addMonths? j = some f) :
    ∃ e, d.addMonths? i = some e := by
  obtain ⟨hmonths, -⟩ := addMonths?_eq_some h
  have hlast := f.isDate.le_last
  have := f.month_mem.2
  exact addMonths?_isSome (by omega)

/-- In one month, a later day is a later date. -/
theorem number_le_of_day_le (hmonth : 12 * d.year + d.month = 12 * e.year + e.month)
    (hday : d.day ≤ e.day) : d.number ≤ e.number := by
  obtain ⟨hdfirst, hdlast⟩ := d.month_mem
  obtain ⟨hefirst, helast⟩ := e.month_mem
  have hyears : d.year = e.year := by omega
  have hmonths : d.month = e.month := by omega
  simp only [number, hyears, hmonths]
  omega

/-- More months lead to no earlier date. -/
theorem addMonths?_le {i j : Nat} (hij : i ≤ j) (he : d.addMonths? i = some e)
    (hf : d.addMonths? j = some f) : e.number ≤ f.number := by
  by_cases heq : i = j
  · subst heq
    obtain rfl := Option.some.inj (he.symm.trans hf)
    exact Int.le_refl _
  · exact Int.le_of_lt (addMonths?_lt (Nat.lt_of_le_of_ne hij heq) he hf)

/-- **Months in two portions** lead to no later date than all of them at once. -/
theorem addMonths?_add {a b : Nat} (h : d.addMonths? (a + b) = some f) :
    ∃ e g, d.addMonths? a = some e ∧ e.addMonths? b = some g ∧ g.number ≤ f.number := by
  obtain ⟨e, he⟩ := addMonths?_isSome_of_le (Nat.le_add_right a b) h
  obtain ⟨hemonth, heday⟩ := addMonths?_eq_some he
  obtain ⟨hfmonth, hfday⟩ := addMonths?_eq_some h
  have hlast := f.isDate.le_last
  obtain ⟨hffirst, hflast⟩ := f.month_mem
  obtain ⟨g, hg⟩ : ∃ g, e.addMonths? b = some g := addMonths?_isSome (by omega)
  obtain ⟨hgmonth, hgday⟩ := addMonths?_eq_some hg
  obtain ⟨hgfirst, hglast⟩ := g.month_mem
  refine ⟨e, g, he, hg, number_le_of_day_le (by omega) ?_⟩
  have hyears : g.year = f.year := by omega
  have hmonths : g.month = f.month := by omega
  rw [hgday, hfday, heday, hyears, hmonths]
  omega

end Date
end SynthData
