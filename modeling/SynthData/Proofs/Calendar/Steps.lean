import SynthData.Calendar.Granularity

/-!
# Calendar steps lead forward

The number of a date counts days, so it grows with the month
(`Date.number_lt_of_month_lt`), wherever in the two months the days lie.  Adding
months keeps the day where it can and moves it to the end of the month where it
cannot; in both cases more months lead to a later month, and so to a later date.

Together with the days of a step this makes the dates after `0, 1, 2, …` steps
strictly ascend, unless the step is empty (`Granularity.advance?_lt`).
-/
namespace SynthData

open Calendar

/-! ## Years and months -/

namespace Calendar

theorem daysBeforeMonth_succ (year : Int) {month : Nat} (h : 0 < month) :
    daysBeforeMonth year (month + 1) = daysBeforeMonth year month + monthLength year month := by
  cases month with
  | zero => omega
  | succ month => rfl

theorem daysBeforeMonth_mono (year : Int) {a b : Nat} (ha : 0 < a) (h : a ≤ b) :
    daysBeforeMonth year a ≤ daysBeforeMonth year b := by
  induction h with
  | refl => exact Nat.le_refl _
  | step h ih =>
    rw [daysBeforeMonth_succ year (Nat.lt_of_lt_of_le ha h)]
    exact Nat.le_trans ih (Nat.le_add_right _ _)

/-- A year has the days of its twelve months. -/
theorem daysBeforeYear_succ (year : Int) :
    daysBeforeYear (year + 1) = daysBeforeYear year + daysBeforeMonth year 13 := by
  have hdays : daysBeforeMonth year 13 = if isLeap year then 366 else 365 := by
    simp only [daysBeforeMonth, monthLength]
    split <;> rfl
  rw [hdays]
  simp only [daysBeforeYear, isLeap]
  by_cases h4 : year % 4 = 0
  · by_cases h100 : year % 100 = 0
    · by_cases h400 : year % 400 = 0
      · simp [h4, h100, h400]; omega
      · simp [h4, h100, h400]; omega
    · simp [h4, h100]; omega
  · simp [h4]; omega

theorem daysBeforeYear_mono {a b : Int} (h : a ≤ b) : daysBeforeYear a ≤ daysBeforeYear b := by
  obtain ⟨n, rfl⟩ := Int.le.dest h
  induction n with
  | zero => simp
  | succ n ih =>
    have hstep := daysBeforeYear_succ (a + n)
    have := ih (Int.le_add_of_nonneg_right (Int.natCast_nonneg n))
    rw [show a + ((n + 1 : Nat) : Int) = a + n + 1 by omega, hstep]
    omega

/-- Months that have days are the first to the twelfth. -/
theorem month_bounds {year : Int} {month : Nat} (h : 0 < monthLength year month) :
    1 ≤ month ∧ month ≤ 12 := by
  unfold monthLength at h
  split at h <;> omega

/-- Going through the months of a year keeps the day of the year. -/
theorem monthOfDay_spec (year : Int) (tries : Nat) {month : Nat} (day : Nat) (h : 0 < month) :
    daysBeforeMonth year (monthOfDay year tries month day).1 +
        (monthOfDay year tries month day).2 =
      daysBeforeMonth year month + day := by
  induction tries generalizing month day with
  | zero => rfl
  | succ tries ih =>
    unfold monthOfDay
    split
    · rfl
    · rw [ih _ (Nat.succ_pos month), daysBeforeMonth_succ year h]
      omega

end Calendar

namespace Date

/-- A date lies in its year. -/
theorem number_mem_year (d : Date) :
    daysBeforeYear d.year < d.number ∧ d.number ≤ daysBeforeYear (d.year + 1) := by
  obtain ⟨hfirst, hlast⟩ := month_bounds (Nat.lt_of_lt_of_le d.isDate.one_le d.isDate.le_length)
  have hone := d.isDate.one_le
  have hend := d.isDate.le_length
  have hnext := daysBeforeMonth_succ d.year hfirst
  have hmono := daysBeforeMonth_mono d.year (a := d.month + 1) (by omega)
    (show d.month + 1 ≤ 13 by omega)
  have hwhole := daysBeforeYear_succ d.year
  simp only [number]
  omega

/-- A later month makes a later date. -/
theorem number_lt_of_month_lt {a b : Date}
    (h : 12 * a.year + a.month < 12 * b.year + b.month) : a.number < b.number := by
  obtain ⟨hafirst, halast⟩ := month_bounds (Nat.lt_of_lt_of_le a.isDate.one_le a.isDate.le_length)
  obtain ⟨-, hblast⟩ := month_bounds (Nat.lt_of_lt_of_le b.isDate.one_le b.isDate.le_length)
  by_cases hyear : a.year = b.year
  · have hend := a.isDate.le_length
    have hone := b.isDate.one_le
    have hnext := daysBeforeMonth_succ a.year hafirst
    have hmono := daysBeforeMonth_mono a.year (a := a.month + 1) (by omega)
      (show a.month + 1 ≤ b.month by omega)
    simp only [number]
    rw [← hyear]
    omega
  · -- the one date is at most the last of its year, and the other one in a later year
    have hlast := a.number_mem_year.2
    have hafter := b.number_mem_year.1
    have hyears := daysBeforeYear_mono (show a.year + 1 ≤ b.year by omega)
    omega

/-- The whole calendar has less than 200 million days. -/
theorem number_sub_lt (a b : Date) : a.number - b.number < 200000000 := by
  have ha := a.number_mem_year.2
  have hb := b.number_mem_year.1
  have hlast := a.isDate.le_last
  have hfirst := b.isDate.first_le
  have hend := daysBeforeYear_mono (show a.year + 1 ≤ lastYear + 1 by omega)
  have hstart := daysBeforeYear_mono hfirst
  have hyears : daysBeforeYear (lastYear + 1) - daysBeforeYear firstYear < 200000000 := by decide
  omega

theorem ofYmd?_eq_some {year : Int} {month day : Nat} {d : Date}
    (h : ofYmd? year month day = some d) : d.year = year ∧ d.month = month ∧ d.day = day := by
  unfold ofYmd? at h
  split at h
  · obtain rfl := Option.some.inj h
    exact ⟨rfl, rfl, rfl⟩
  · cases h

/-- The date with a number has that number. -/
theorem number_of_ofNumber? {number : Int} {d : Date} (h : ofNumber? number = some d) :
    d.number = number := by
  simp only [ofNumber?] at h
  obtain ⟨hyear, hmonth, hday⟩ := ofYmd?_eq_some h
  have hspec := monthOfDay_spec (yearOfDay number) 11
    (number - daysBeforeYear (yearOfDay number)).toNat Nat.one_pos
  have hone := d.isDate.one_le
  rw [← hmonth, ← hday] at hspec
  simp only [daysBeforeMonth, Nat.zero_add] at hspec
  rw [Date.number, hyear]
  omega

theorem number_addDays? {d e : Date} {days : Nat} (h : d.addDays? days = some e) :
    e.number = d.number + days :=
  number_of_ofNumber? h

/-- More months lead to a later date, wherever the days of the months end. -/
theorem addMonths?_lt {d a b : Date} {i j : Nat} (hij : i < j) (ha : d.addMonths? i = some a)
    (hb : d.addMonths? j = some b) : a.number < b.number := by
  obtain ⟨hayear, hamonth, -⟩ := ofYmd?_eq_some ha
  obtain ⟨hbyear, hbmonth, -⟩ := ofYmd?_eq_some hb
  apply number_lt_of_month_lt
  rw [hayear, hamonth, hbyear, hbmonth]
  omega

end Date

/-! ## Steps -/

namespace Granularity

variable {g : Granularity} {start : Date}

/-- The months of a step are added first, and its days afterwards. -/
theorem advance?_eq_some {steps : Nat} {d : Date} (h : g.advance? start steps = some d) :
    ∃ e, start.addMonths? (g.monthsPerStep * steps) = some e ∧
      d.number = e.number + g.days.toNat * steps := by
  obtain ⟨e, he, hd⟩ := Option.bind_eq_some_iff.mp h
  refine ⟨e, he, ?_⟩
  rw [Date.number_addDays? hd, Int.natCast_mul]

/-- A step that is not empty has months or days. -/
theorem pos_of_not_isZero (h : g.isZero = false) : 0 < g.monthsPerStep ∨ 0 < g.days.toNat := by
  by_cases hyears : g.years = 0
  · by_cases hmonths : g.months = 0
    · have hdays : g.days ≠ 0 := by simpa [isZero, hyears, hmonths] using h
      exact Or.inr (Nat.pos_of_ne_zero fun hzero => hdays (UInt32.toNat_inj.mp hzero))
    · have : g.months.toNat ≠ 0 := fun hzero => hmonths (UInt32.toNat_inj.mp hzero)
      exact Or.inl (by unfold monthsPerStep; omega)
  · have : g.years.toNat ≠ 0 := fun hzero => hyears (UInt32.toNat_inj.mp hzero)
    exact Or.inl (by unfold monthsPerStep; omega)

/-- **More steps lead to a later date.** -/
theorem advance?_lt (hg : g.isZero = false) {i j : Nat} (hij : i < j) {a b : Date}
    (ha : g.advance? start i = some a) (hb : g.advance? start j = some b) :
    a.number < b.number := by
  obtain ⟨a', ha', hanumber⟩ := advance?_eq_some ha
  obtain ⟨b', hb', hbnumber⟩ := advance?_eq_some hb
  have hdays : g.days.toNat * i ≤ g.days.toNat * j := Nat.mul_le_mul_left _ (Nat.le_of_lt hij)
  by_cases hmonths : 0 < g.monthsPerStep
  · have hlater := Date.addMonths?_lt (Nat.mul_lt_mul_of_pos_left hij hmonths) ha' hb'
    omega
  · -- a step of days alone starts from the same date each time
    have hnone : g.monthsPerStep = 0 := Nat.eq_zero_of_not_pos hmonths
    have hpos := (pos_of_not_isZero hg).resolve_left hmonths
    rw [hnone, Nat.zero_mul] at ha' hb'
    obtain rfl := Option.some.inj (ha'.symm.trans hb')
    have hless : g.days.toNat * i < g.days.toNat * j := Nat.mul_lt_mul_of_pos_left hij hpos
    omega

/-- Different numbers of steps lead to different dates. -/
theorem advance?_inj (hg : g.isZero = false) {i j : Nat} {d : Date}
    (hi : g.advance? start i = some d) (hj : g.advance? start j = some d) : i = j := by
  rcases Nat.lt_trichotomy i j with hij | heq | hji
  · exact absurd (advance?_lt hg hij hi hj) (Int.lt_irrefl _)
  · exact heq
  · exact absurd (advance?_lt hg hji hj hi) (Int.lt_irrefl _)

/-! ## The last step -/

theorem walkBack_le (min max : Date) (steps : Nat) : g.walkBack min max steps ≤ steps := by
  induction steps with
  | zero => exact Nat.le_refl _
  | succ steps ih =>
    unfold walkBack
    split
    · omega
    · exact Nat.le_refl _

/-- There are no more steps than days in the range. -/
theorem lastStep_le {min max : Date} {last : Nat} (h : g.lastStep min max = .ok last) :
    last ≤ (max.number - min.number).toNat := by
  unfold lastStep at h
  split at h
  · cases h
  · split at h
    · cases h
    · obtain rfl := Except.ok.inj h
      exact Nat.le_trans (g.walkBack_le min max _) (Nat.div_le_self _ _)

end Granularity
end SynthData
