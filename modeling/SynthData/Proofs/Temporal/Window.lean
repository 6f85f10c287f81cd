import SynthData.Proofs.Temporal.Completeness

/-!
# Date-times within their bounds

A number of steps that a strategy chooses is at most the last step, so its date does not pass
the end of the range; and no step leads back behind the beginning (`Days.machine_mem_range`).

Times are whole seconds from the second of the least time to that of the greatest one.  A whole
second of the window's end never passes it, but the whole second in which the window begins may
lie before its beginning: a time is in the window unless it is of this very second and the
window begins within it (`Instants.pass_mem_window`).  So a window that begins half a second
after eight o'clock yields eight o'clock (`Instants.pass_leaves_window`).
-/
namespace SynthData

variable {ν τ : Type}

/-- Strategies made for a range that may be refused hand out points of it, if it is not. -/
theorem Strategy.numbers_yields {s : Strategy} (hs : s.Ranged)
    {wanted : Except Fault Spec}
    (hlong : ∀ spec, wanted = .ok spec → ∃ min max granularity, spec = .long min max granularity)
    (unique : Bool) :
    ∃ inv : NumberGen → Prop,
      NumberGen.machine.Yields inv (fun n => ∃ spec i, wanted = .ok spec ∧
        spec.validate = .ok () ∧ spec.HasPoint i ∧ n = spec.valueAt i) ∧
      ∀ spec gen, wanted = .ok spec → s.numbers spec unique = .ok gen → inv gen := by
  by_cases hmade : ∃ spec, wanted = .ok spec ∧ spec.validate = .ok ()
  · obtain ⟨spec, rfl, hv⟩ := hmade
    obtain ⟨min, max, granularity, rfl⟩ := hlong spec rfl
    refine ⟨_, (NumberGen.machine_yields hv).imp ?_, ?_⟩
    · rintro n ⟨i, hi, hn⟩
      exact ⟨_, i, rfl, hv, hi, hn⟩
    · intro spec gen hspec hgen
      obtain rfl := Except.ok.inj hspec
      exact (numbers_makes hs hgen).2.on
  · refine ⟨fun _ => False, .vacuous (fun _ h => h) _, ?_⟩
    intro spec gen hspec hgen
    exact hmade ⟨spec, hspec, (numbers_makes hs hgen).1⟩

/-! ## Dates -/

namespace DateRange

variable {range : DateRange} {date : Date}

/-- The date is the one at a number of steps up to the last step. -/
def Reaches (range : DateRange) (date : Date) : Prop :=
  ∃ last steps, range.granularity.lastStep range.min range.max = .ok last ∧ steps ≤ last ∧
    range.granularity.advance? range.min steps = some date

/-- No step leads back behind the beginning, and up to the last one none leads past the end. -/
theorem Reaches.mem (h : range.Reaches date) : range.min ≤ date ∧ date ≤ range.max := by
  obtain ⟨last, steps, hlast, hle, hstep⟩ := h
  obtain ⟨date', hdate', hend⟩ := (Granularity.le_lastStep_iff hlast steps).mp hle
  obtain rfl := Option.some.inj (hdate'.symm.trans hstep)
  have hforward := Granularity.le_number_of_advance? hstep
  have hdays : (0 : Int) ≤ range.granularity.leastDays * steps :=
    Int.mul_nonneg (Int.natCast_nonneg _) (Int.natCast_nonneg _)
  exact ⟨by rw [Date.le_iff]; omega, hend⟩

/-- **Every number of steps of the range leads to a date.** -/
theorem dateAt_of_point {spec : Spec} (h : range.steps = .ok spec) {i : Nat}
    (hi : spec.HasPoint i) :
    ∃ date, Days.dateAt range (spec.valueAt i) = .ok (some date) ∧ range.Reaches date := by
  obtain ⟨last, hlast, hn, rfl⟩ := lastStep_of_steps h
  have hi : i < last + 1 := (Spec.hasPoint_indices hn (Nat.succ_pos last)).mp hi
  have hle : i ≤ last := Nat.le_of_lt_succ hi
  obtain ⟨date, hdate, -⟩ := (Granularity.le_lastStep_iff hlast i).mp hle
  exact ⟨date, Days.dateAt_eq_some.mpr ((dateOf?_valueAt hn hi).trans hdate),
    last, i, hlast, hle, hdate⟩

end DateRange

namespace Days

variable {range : DateRange} {d : Distribution ν} {unique : Bool} {s : Strategy}

/-- Good numbers of steps make good dates. -/
theorem machine_yields {inv : ν → Prop} {good : Number → Prop} {goodDate : Date → Prop}
    (hm : d.machine.Yields inv good)
    (hnew : ∀ spec steps, range.steps = .ok spec → d.numbers spec unique = .ok steps → inv steps)
    (hgood : ∀ n date, good n → dateAt range n = .ok (some date) → goodDate date) :
    (machine range d unique).Yields (Sound inv) goodDate where
  toKeeps := machine_keeps hm.toKeeps hnew
  good := by
    intro g date hg h
    rcases generate_cases range d unique g with ⟨hnone, -⟩ | ⟨steps, hsteps, -, hdate⟩
    · exact absurd h (hnone date)
    · obtain ⟨n, hn, hat⟩ := hdate date h
      exact hgood n date (hm.good steps n (hg steps hsteps) hn) hat

/-- **Dates are those at the numbers of steps up to the last one**, whatever the strategy. -/
theorem machine_reaches (hs : s.Ranged) (range : DateRange) (unique : Bool) :
    ∃ inv : NumberGen → Prop,
      (machine range s.distribution unique).Yields (Sound inv) range.Reaches := by
  obtain ⟨inv, hm, hnew⟩ := Strategy.numbers_yields hs (fun _ => DateRange.steps_long) unique
  refine ⟨inv, machine_yields hm hnew ?_⟩
  rintro _ date ⟨spec, i, hspec, -, hi, rfl⟩ hdate
  obtain ⟨date', hdate', hreaches⟩ := DateRange.dateAt_of_point hspec hi
  obtain rfl := Option.some.inj (Except.ok.inj (hdate'.symm.trans hdate))
  exact hreaches

/-- **Dates stay in their range**, whatever the strategy. -/
theorem machine_mem_range (hs : s.Ranged) (range : DateRange) (unique : Bool) :
    ∃ inv : NumberGen → Prop, (machine range s.distribution unique).Yields (Sound inv)
      (fun date => range.min ≤ date ∧ date ≤ range.max) := by
  obtain ⟨inv, hm⟩ := machine_reaches hs range unique
  exact ⟨inv, hm.imp fun _ h => h.mem⟩

end Days

/-! ## Times -/

namespace TimeWindow

variable {w : TimeWindow} {openEnded : Bool}

/-- The seconds of a window begin with the second of the least time.  They end with the second of
the greatest time, unless an open end takes its place. -/
theorem seconds_eq_ok {spec : Spec} (h : w.seconds openEnded = .ok spec) :
    ∃ last, spec = .long (Int64.ofNat w.min.seconds) (Int64.ofNat last) w.granularity ∧
      last < secondsPerDay ∧
      (¬ (openEnded = true ∧ w.min = w.max) → last = w.max.seconds) := by
  unfold seconds at h
  split at h
  · cases h
  · split at h
    · cases h
    · obtain rfl := Except.ok.inj h
      refine ⟨_, rfl, ?_, fun hwidth => if_neg (by simpa using hwidth)⟩
      split
      · decide
      · exact w.max.seconds_lt

/-- Seconds are whole numbers. -/
theorem seconds_long {spec : Spec} (h : w.seconds openEnded = .ok spec) :
    ∃ min max granularity, spec = .long min max granularity := by
  obtain ⟨last, rfl, -⟩ := seconds_eq_ok h
  exact ⟨_, _, _, rfl⟩

/-- A second of a day is a word of its own. -/
theorem toInt_ofNat_second {second : Nat} (h : second < secondsPerDay) :
    (Int64.ofNat second).toInt = second :=
  Int64.toInt_ofNat_of_lt (h.trans (by decide))

/-- The number of seconds at a point of the window lies between the seconds of its ends. -/
theorem second_of_point {spec : Spec} (h : w.seconds openEnded = .ok spec)
    (hv : spec.validate = .ok ()) {i : Nat} (hi : spec.HasPoint i) :
    ∃ (n : Int64) (last : Nat), spec.valueAt i = .long n ∧ w.min.seconds ≤ n.toInt ∧
      n.toInt ≤ last ∧ last < secondsPerDay ∧
      (¬ (openEnded = true ∧ w.min = w.max) → last = w.max.seconds) := by
  obtain ⟨last, rfl, hday, hlast⟩ := seconds_eq_ok h
  have hpos := (Spec.validate_long.mp hv).2
  obtain ⟨n, hvalue, hint⟩ := Spec.valueAt_long hpos hi
  have hi : (Int64.ofNat w.min.seconds).toInt + i * w.granularity.toInt ≤
    (Int64.ofNat last).toInt := hi
  have hsteps : 0 ≤ i * w.granularity.toInt :=
    Int.mul_nonneg (Int.natCast_nonneg i) (Int.le_of_lt hpos)
  rw [toInt_ofNat_second w.min.seconds_lt] at hi hint
  rw [toInt_ofNat_second hday] at hi
  exact ⟨n, last, hvalue, by omega, by omega, hday, hlast⟩

end TimeWindow

namespace Instants

theorem join_eq_some {date : Date} {offset : Number} {v : DateTime}
    (h : join date offset = .ok (some v)) :
    v.date = date ∧ v.time.nanos = 0 ∧ (v.time.seconds : Int) = offset.toInt64.toInt := by
  unfold join at h
  dsimp only at h
  split at h
  · rename_i time htime
    obtain rfl := Option.some.inj (Except.ok.inj h)
    split at htime
    · rename_i hpos
      have hpos : 0 ≤ offset.toInt64.toInt := Int64.le_iff_toInt_le.mp hpos
      unfold TimeOfDay.ofSeconds? at htime
      split at htime
      · obtain rfl := Option.some.inj htime
        exact ⟨rfl, rfl, Int.toNat_of_nonneg hpos⟩
      · cases htime
    · cases htime
  · cases h

/-- The time at a number of seconds of the window is a whole second, from the second in which the
window begins to the one in which it ends. -/
theorem mem_of_point {w : TimeWindow} {openEnded : Bool} {spec : Spec}
    (h : w.seconds openEnded = .ok spec) (hwidth : ¬ (openEnded = true ∧ w.min = w.max))
    (hv : spec.validate = .ok ()) {i : Nat} (hi : spec.HasPoint i) {date : Date} {v : DateTime}
    (hjoin : join date (spec.valueAt i) = .ok (some v)) :
    v.time.nanos = 0 ∧ w.min.seconds ≤ v.time.seconds ∧ v.time.seconds ≤ w.max.seconds := by
  obtain ⟨n, last, hvalue, hfirst, hle, -, hlast⟩ := TimeWindow.second_of_point h hv hi
  obtain rfl := hlast hwidth
  rw [hvalue] at hjoin
  obtain ⟨-, hnanos, hseconds⟩ := join_eq_some hjoin
  change (v.time.seconds : Int) = n.toInt at hseconds
  exact ⟨hnanos, by omega, by omega⟩

/-! ## Days and times together -/

variable {range : InstantRange} {d : Distribution ν} {t : Distribution τ} {unique : Bool}

/-- Good days and good times make good date-times. -/
theorem machine_yields {inv : Days ν → Prop} {inv' : τ → Prop} {good : Date → Prop}
    {good' : Number → Prop} (hd : (Days.machine range.days d unique).Yields inv good)
    (ht : t.machine.Yields inv' good')
    (hnew : ∀ spec times, range.times.seconds t.openEnded = .ok spec →
      t.numbers spec unique = .ok times → inv' times) :
    (machine range d t unique).Yields (fun g => inv g.days ∧ ∀ times ∈ g.times, inv' times)
      (fun v => good v.date ∧ ∃ offset, good' offset ∧ join v.date offset = .ok (some v)) where
  toKeeps := machine_keeps_times hd.toKeeps ht.toKeeps hnew
  good := by
    rintro g v ⟨hdays, htimes⟩ hv
    rcases generate_timed range d t unique g with ⟨⟨fault, hfault⟩, -⟩ | ⟨-, times, -, htimed⟩
    · rw [hfault] at hv
      cases hv
    · rw [hv] at htimed
      cases htimed with
      | asked date s _ hdate hs _ hsome =>
        obtain ⟨offset, hoffset, hjoin⟩ := hsome v rfl
        obtain ⟨rfl, -⟩ := join_eq_some hjoin
        exact ⟨hd.good g.days v.date hdays hdate, offset,
          ht.good s offset (htimes s hs) hoffset, hjoin⟩

/-- **Date-times stay within their bounds**, except in the second of the least time.  Unless an
open-ended strategy meets a window without width, the date of every date-time lies in the range
and its time does not pass the greatest one.  The time is not before the least one either, if
the least one is a whole second or the time is of a later second. -/
theorem pass_mem_window {days times : Strategy} (hdays : days.Ranged)
    (htimes : times.Ranged) (range : InstantRange) (unique : Bool)
    (hwidth : ¬ (times.openEnded = true ∧ range.times.min = range.times.max))
    (streams : Streams) (calls : List Machine.Call) :
    ∀ v ∈ ((machine range days.distribution times.distribution unique).run calls
        (.start .new streams)).pass,
      range.days.min ≤ v.date ∧ v.date ≤ range.days.max ∧ v.time ≤ range.times.max ∧
        (range.times.min ≤ v.time ↔
          range.times.min.nanos = 0 ∨ range.times.min.seconds < v.time.seconds) := by
  intro v hv
  obtain ⟨inv, hd⟩ := Days.machine_mem_range hdays range.days unique
  have hlong (spec : Spec) (h : range.times.seconds times.openEnded = .ok spec) :
      ∃ min max granularity, spec = .long min max granularity := by
    obtain ⟨last, rfl, -⟩ := TimeWindow.seconds_eq_ok h
    exact ⟨_, _, _, rfl⟩
  obtain ⟨inv', ht, hnew⟩ := Strategy.numbers_yields htimes hlong unique
  have hm := machine_yields (t := times.distribution) hd ht hnew
  obtain ⟨⟨hmin, hmax⟩, offset, ⟨spec, i, hspec, hvalid, hi, rfl⟩, hjoin⟩ :=
    hm.pass ⟨Days.sound_new inv, fun _ hnone => absurd hnone (Option.not_mem_none _)⟩
      streams calls v hv
  obtain ⟨hnanos, hfirst, hlast⟩ := mem_of_point hspec hwidth hvalid hi hjoin
  have hbefore : range.times.min ≤ v.time ↔ ¬ (v.time.seconds < range.times.min.seconds ∨
    (v.time.seconds = range.times.min.seconds ∧ v.time.nanos < range.times.min.nanos)) := Iff.rfl
  have hafter : v.time ≤ range.times.max ↔ ¬ (range.times.max.seconds < v.time.seconds ∨
    (range.times.max.seconds = v.time.seconds ∧ range.times.max.nanos < v.time.nanos)) := Iff.rfl
  exact ⟨hmin, hmax, hafter.mpr (by omega), by rw [hbefore]; omega⟩

theorem isDate_newYear : Calendar.IsDate 2024 1 1 := by decide

/-- A whole second has a place among the parts of a second. -/
theorem zero_nanos_lt : 0 < 2 * nanosPerSecond := by decide

/-- The two seconds after half a second past eight, on a single day. -/
def earlyHours : InstantRange :=
  ⟨⟨⟨2024, 1, 1, isDate_newYear⟩, ⟨2024, 1, 1, isDate_newYear⟩, .daily⟩,
    ⟨⟨28800, 500000000, by decide, by decide⟩, ⟨28801, 0, by decide, zero_nanos_lt⟩, 1⟩⟩

theorem pass_mem_window_earlyHours :
    let m := machine earlyHours Strategy.increment.distribution Strategy.wedge.distribution false
    let r := m.run [.init ⟨{}, 0⟩, .generate, .generate] (.start .new (.start fun _ => .ofSeed 0))
    r.pass.map (·.time.seconds) = [28801, 28800] ∧ ∀ v ∈ r.pass,
      earlyHours.days.min ≤ v.date ∧ v.date ≤ earlyHours.days.max ∧
        v.time ≤ earlyHours.times.max ∧
        (earlyHours.times.min ≤ v.time ↔
          earlyHours.times.min.nanos = 0 ∨ earlyHours.times.min.seconds < v.time.seconds) :=
  ⟨by decide, pass_mem_window (fun _ h => by cases h) (fun _ h => by cases h) earlyHours false
    (by decide) _ _⟩

/-- **A window that begins within a second is left**: its times begin with the whole second before
it, which is handed out although the window is accepted and has a width. -/
theorem pass_leaves_window :
    let w := earlyHours.times
    let m := machine earlyHours Strategy.increment.distribution Strategy.wedge.distribution false
    let r := m.run [.init ⟨{}, 0⟩, .generate] (.start .new (.start fun _ => .ofSeed 0))
    w.seconds false = .ok (.long 28800 28801 1) ∧ w.min ≤ w.max ∧ w.min ≠ w.max ∧
      ∃ v ∈ r.pass, ¬ w.min ≤ v.time := by
  refine ⟨by rfl, by decide, by decide, ⟨⟨2024, 1, 1, by decide⟩, ⟨28800, 0, by decide, by decide⟩⟩,
    ?_, by decide⟩
  decide

end Instants
end SynthData
