import SynthData.Proofs.Generator.Serving
import SynthData.Proofs.Temporal.Window

/-!
# Dates at steps up to the last one

A strategy asked for numbers of steps stays on their grid, so each number that it hands out is
at most the last step, and up to the last step the calendar has a date for every number
(`DateRange.dateAt_of_point`).  The seconds of a window end within the day, also when the window
is open, so each of them is a time of day (`Instants.join_of_point`).

Hence neither a number of steps nor an offset is ever outside the calendar or the day.  A day
generator is new, in the course of a pass or closed (`Days.Stage`), a date-time generator is
opening, in the course of a pass or closed (`Instants.Stage`); no call leaves these stages, and
in a pass no call of `generate` fails (`Instants.pass_reaches`).
-/
namespace SynthData

variable {ν τ : Type}

/-! ## Numbers that do not fail -/

/-- **Numbers made for a range are good and do not fail.**  They are live once they have been
initialized; live ones answer with good numbers only, and they start over when they are
reset. -/
structure Distribution.Sustains (d : Distribution ν) (wanted : Except Fault Spec) (unique : Bool)
    (live : ν → Prop) (good : Number → Prop) : Prop where
  init : ∀ spec numbers context streams, wanted = .ok spec → d.numbers spec unique = .ok numbers →
    (d.machine.init context numbers streams).1 = .ok () →
    live (d.machine.init context numbers streams).2.1
  generate : ∀ s, live s → live (d.machine.generate s).2
  answers : ∀ s, live s → ∃ value, (d.machine.generate s).1 = .ok value ∧ ∀ n ∈ value, good n
  reset : ∀ s streams, live s →
    (d.machine.reset s streams).1 = .ok () ∧ live (d.machine.reset s streams).2.1

/-- Number generators that run start over when they are reset. -/
theorem NumberGen.reset_live {g : NumberGen} (hg : g.Live) (streams : Streams) :
    (machine.reset g streams).1 = .ok () := by
  cases g with
  | grid owner g =>
    obtain ⟨spec, walk, rng, phase⟩ := g
    obtain rfl : phase = .running := hg
    rfl
  | expand unique quota e =>
    obtain ⟨⟨⟨spec, walk, rng, phase⟩, phase'⟩, pool, capacity, depleted, rng'⟩ := e
    obtain ⟨rfl, rfl⟩ : phase' = .running ∧ phase = .running := ⟨hg.phase, hg.source⟩
    rfl
  | weighted owner w =>
    obtain ⟨⟨spec, weight, table, count, rng, phase⟩, phase'⟩ := w
    obtain ⟨rfl, rfl⟩ : phase' = .running ∧ phase = .running := ⟨hg.phase, hg.source⟩
    rfl
  | inverse g =>
    obtain ⟨spec, function, least, mass, rng, phase⟩ := g
    obtain rfl : phase = .running := hg
    rfl
  | listed l =>
    obtain ⟨cursor, phase⟩ := l
    obtain rfl : phase = .running := hg
    rfl

/-- **Strategies hand out points of the range that is wanted**, and do not fail. -/
theorem Strategy.sustains {s : Strategy} (hs : s.Ranged)
    {wanted : Except Fault Spec}
    (hlong : ∀ spec, wanted = .ok spec → ∃ min max granularity, spec = .long min max granularity)
    (unique : Bool) :
    ∃ live : NumberGen → Prop, s.distribution.Sustains wanted unique live (fun n =>
      ∃ spec i, wanted = .ok spec ∧ spec.validate = .ok () ∧ spec.HasPoint i ∧
        n = spec.valueAt i) := by
  obtain ⟨inv, hyields, hnew⟩ := numbers_yields hs hlong unique
  refine ⟨fun g => inv g ∧ g.Live, ⟨?init, ?generate, ?answers, ?reset⟩⟩
  case init =>
    intro spec gen context streams hspec hgen hinit
    exact ⟨hyields.init context gen streams (hnew spec gen hspec hgen),
      NumberGen.serves.init context gen streams hinit⟩
  case generate =>
    rintro g ⟨hinv, hlive⟩
    exact ⟨hyields.generate g hinv, NumberGen.serves.generate g hlive⟩
  case answers =>
    rintro g ⟨hinv, hlive⟩
    obtain ⟨value, hvalue⟩ := NumberGen.serves.answers g hlive
    refine ⟨value, hvalue, ?_⟩
    rintro n rfl
    exact hyields.good g n hinv hvalue
  case reset =>
    rintro g streams ⟨hinv, hlive⟩
    have hreset := NumberGen.reset_live hlive streams
    exact ⟨hreset, hyields.reset g streams hinv, NumberGen.serves.reset g streams hreset⟩

/-! ## Dates -/

namespace Days

variable {range : DateRange} {d : Distribution ν} {unique : Bool} {live : ν → Prop}
  {good : Number → Prop} {g : Days ν}

/-- Where a day generator is: new, in the course of a pass, or closed. -/
inductive Stage (live : ν → Prop) : Days ν → Prop where
  | new : Stage live .new
  | passing (steps : ν) (hlive : live steps) : Stage live ⟨some steps, .running⟩
  | closed (steps : Option ν) : Stage live ⟨steps, .closed⟩

theorem Stage.of_passing (hg : g.Passing live) : Stage live g := by
  obtain ⟨steps, hlive, rfl⟩ := hg
  exact .passing steps hlive

/-- A day generator that is initialized stays as it was, or begins a pass. -/
theorem init_stage (hd : d.Sustains range.steps unique live good) (hg : Stage live g)
    (context : Context) (streams : Streams) :
    Stage live (init range d unique context g streams).2.1 ∧
      ((init range d unique context g streams).1 = .ok () →
        (init range d unique context g streams).2.1.Passing live) := by
  cases hg with
  | passing steps hlive =>
    exact ⟨.passing steps hlive, by simp [init, Phase.requireCreated]⟩
  | closed steps => exact ⟨.closed steps, by simp [init, Phase.requireCreated]⟩
  | new =>
    simp only [init, new, Phase.requireCreated]
    split
    · exact ⟨.new, by simp⟩
    · rename_i spec hspec
      split
      · exact ⟨.new, by simp⟩
      · rename_i steps hsteps
        have hlive := hd.init spec steps context streams hspec hsteps
        split
        · exact ⟨.new, by simp⟩
        · rename_i steps' streams' hinit
          rw [hinit] at hlive
          exact ⟨.passing steps' (hlive rfl), fun _ => ⟨steps', hlive rfl, rfl⟩⟩

/-- In the course of a pass there is a date for every number of steps. -/
theorem generate_passing (hd : d.Sustains range.steps unique live good)
    (hgood : ∀ n, good n → ∃ date, dateAt range n = .ok (some date)) (hg : g.Passing live) :
    (∃ value, ((machine range d unique).generate g).1 = .ok value) ∧
      ((machine range d unique).generate g).2.Passing live := by
  obtain ⟨steps, hlive, rfl⟩ := hg
  have hnext := hd.generate steps hlive
  obtain ⟨value, hvalue, hpoints⟩ := hd.answers steps hlive
  rcases hgenerate : d.machine.generate steps with ⟨answer, steps'⟩
  rw [hgenerate] at hnext hvalue
  obtain rfl : answer = .ok value := hvalue
  cases value with
  | none =>
    simp only [machine, emit, Phase.requireRunning, hgenerate]
    exact ⟨⟨none, rfl⟩, steps', hnext, rfl⟩
  | some n =>
    obtain ⟨date, hdate⟩ := hgood n (hpoints n rfl)
    simp only [machine, emit, Phase.requireRunning, hgenerate]
    exact ⟨⟨some date, hdate⟩, steps', hnext, rfl⟩

theorem reset_passing (hd : d.Sustains range.steps unique live good) (hg : g.Passing live)
    (streams : Streams) : ((machine range d unique).reset g streams).2.1.Passing live := by
  obtain ⟨steps, hlive, rfl⟩ := hg
  exact ⟨_, (hd.reset steps streams hlive).2, rfl⟩

/-- **No call leaves the stages.** -/
theorem sustained_keeps (hd : d.Sustains range.steps unique live good)
    (hgood : ∀ n, good n → ∃ date, dateAt range n = .ok (some date)) :
    (machine range d unique).Keeps (Stage live) where
  init := fun context _ streams hg => (init_stage hd hg context streams).1
  generate := by
    intro g hg
    cases hg with
    | new => exact .new
    | passing steps hlive =>
      exact .of_passing (generate_passing hd hgood ⟨steps, hlive, rfl⟩).2
    | closed steps => exact .closed steps
  reset := by
    intro g streams hg
    cases hg with
    | new => exact (init_stage hd .new _ _).1
    | passing steps hlive => exact .of_passing (reset_passing hd ⟨steps, hlive, rfl⟩ streams)
    | closed steps => exact .closed steps
  close := fun _ _ => .closed _

/-- **No step is outside the calendar**: a day generator that fails is new or closed. -/
theorem Stage.not_outside (hd : d.Sustains range.steps unique live good)
    (hgood : ∀ n, good n → ∃ date, dateAt range n = .ok (some date)) (hg : Stage live g)
    (step : Number) :
    ((machine range d unique).generate g).1 ≠ .error (.dateStepOutside step) := by
  cases hg with
  | new | closed _ => nofun
  | passing steps hlive =>
    obtain ⟨⟨value, hvalue⟩, -⟩ := generate_passing hd hgood ⟨steps, hlive, rfl⟩
    rw [hvalue]
    nofun

end Days

/-! ## Times -/

namespace Instants

/-- **Every number of seconds is a time of day**, also beyond the end of a window that is open. -/
theorem join_of_point {w : TimeWindow} {openEnded : Bool} {spec : Spec}
    (h : w.seconds openEnded = .ok spec) (hv : spec.validate = .ok ()) {i : Nat}
    (hi : spec.HasPoint i) (date : Date) : ∃ v, join date (spec.valueAt i) = .ok (some v) := by
  obtain ⟨n, last, hvalue, hfirst, hlast, hday, -⟩ := TimeWindow.second_of_point h hv hi
  have hpos : 0 ≤ n := Int64.le_iff_toInt_le.mpr (by rw [Int64.toInt_zero]; omega)
  have hfits : n.toInt.toNat < secondsPerDay := by omega
  obtain ⟨time, htime⟩ : ∃ time, TimeOfDay.ofSeconds? n.toInt.toNat = some time :=
    ⟨_, dif_pos hfits⟩
  refine ⟨⟨date, time⟩, ?_⟩
  rw [hvalue]
  simp only [join, Number.toInt64, if_pos hpos, htime]

/-! ## Days and times together -/

variable {range : InstantRange} {d : Distribution ν} {t : Distribution τ} {unique : Bool}
  {live : ν → Prop} {live' : τ → Prop} {good good' : Number → Prop} {g : Instants ν τ}

/-- Where a date-time generator is: opening, in the course of a pass, or closed.  If its times
could not be initialized it goes on opening, although its days are in the course of a pass. -/
inductive Stage (live : ν → Prop) (live' : τ → Prop) : Instants ν τ → Prop where
  | opening (days : Days ν) (hdays : Days.Stage live days) : Stage live live' ⟨days, none, .created⟩
  | passing (days : Days ν) (hdays : days.Passing live) (times : τ) (htimes : live' times) :
    Stage live live' ⟨days, some times, .running⟩
  | closed (days : Days ν) (times : Option τ) : Stage live live' ⟨days, times, .closed⟩

section

variable (hd : d.Sustains range.days.steps unique live good)
  (ht : t.Sustains (range.times.seconds t.openEnded) unique live' good')

include hd ht

theorem init_stage (hg : Stage live live' g) (context : Context) (streams : Streams) :
    Stage live live' (init range d t unique context g streams).2.1 := by
  cases hg with
  | passing days hdays times htimes => exact .passing days hdays times htimes
  | closed days times => exact .closed days times
  | opening days hdays =>
    simp only [init, Phase.requireCreated]
    split
    · exact .opening days hdays
    · rename_i spec hspec
      split
      · exact .opening days hdays
      · rename_i times htimes
        obtain ⟨hstage, hpassing⟩ := Days.init_stage hd hdays context streams
        simp only [Days.machine]
        split
        · rename_i hinit
          rw [hinit] at hstage
          exact .opening _ hstage
        · rename_i days' streams' hinit
          rw [hinit] at hstage hpassing
          have hlive := ht.init spec times context streams' hspec htimes
          split
          · exact .opening days' hstage
          · rename_i hbegun
            rw [hbegun] at hlive
            exact .passing days' (hpassing rfl) _ (hlive rfl)

variable (hgood : ∀ n, good n → ∃ date, Days.dateAt range.days n = .ok (some date))
  (hgood' : ∀ n, good' n → ∀ date, ∃ v, join date n = .ok (some v))

include hgood hgood'

/-- In the course of a pass there is a date-time for every number of steps and of seconds. -/
theorem generate_passing {days : Days ν} (hdays : days.Passing live) {times : τ}
    (htimes : live' times) :
    (∃ value, ((machine range d t unique).generate ⟨days, some times, .running⟩).1 = .ok value) ∧
      Stage live live' ((machine range d t unique).generate ⟨days, some times, .running⟩).2 := by
  obtain ⟨⟨value, hvalue⟩, hnext⟩ := Days.generate_passing hd hgood hdays
  rcases hday : (Days.machine range.days d unique).generate days with ⟨answer, days'⟩
  rw [hday] at hvalue hnext
  obtain rfl : answer = .ok value := hvalue
  cases value with
  | none =>
    simp only [machine, emit, Phase.requireRunning, hday]
    exact ⟨⟨none, rfl⟩, .passing days' hnext times htimes⟩
  | some date =>
    have hlater := ht.generate times htimes
    obtain ⟨offset, hoffset, hseconds⟩ := ht.answers times htimes
    rcases htime : t.machine.generate times with ⟨answer, times'⟩
    rw [htime] at hlater hoffset
    obtain rfl : answer = .ok offset := hoffset
    simp only [machine, emit, Phase.requireRunning, hday, htime]
    cases offset with
    | none => exact ⟨⟨none, rfl⟩, .passing days' hnext times' hlater⟩
    | some n =>
      obtain ⟨v, hv⟩ := hgood' n (hseconds n rfl) date
      exact ⟨⟨some v, hv⟩, .passing days' hnext times' hlater⟩

/-- **No call leaves the stages.** -/
theorem stage_keeps : (machine range d t unique).Keeps (Stage live live') where
  init := fun context _ streams hg => init_stage hd ht hg context streams
  generate := by
    intro g hg
    cases hg with
    | opening days hdays => exact .opening days hdays
    | passing days hdays times htimes =>
      exact (generate_passing hd ht hgood hgood' hdays htimes).2
    | closed days times => exact .closed days times
  reset := by
    intro g streams hg
    cases hg with
    | opening days hdays => exact init_stage hd ht (.opening days hdays) _ _
    | closed days times => exact .closed days times
    | passing days hdays times htimes =>
      have hnext := Days.reset_passing hd hdays streams
      rcases hreset : (Days.machine range.days d unique).reset days streams with
        ⟨fault | _, days', streams'⟩
      all_goals rw [hreset] at hnext
      · simpa only [machine, hreset] using Stage.passing days' hnext times htimes
      · simpa only [machine, hreset] using
          Stage.passing days' hnext _ (ht.reset times streams' htimes).2
  close := fun _ _ => .closed _ _

/-- **Nothing is outside the calendar or the day**: a date-time generator that fails is opening
or closed. -/
theorem Stage.not_outside (hg : Stage live live' g) :
    (∀ step, ((machine range d t unique).generate g).1 ≠ .error (.dateStepOutside step)) ∧
      ∀ offset, ((machine range d t unique).generate g).1 ≠ .error (.timeOffsetOutside offset) := by
  cases hg with
  | opening _ _ | closed _ _ => exact ⟨nofun, nofun⟩
  | passing days hdays times htimes =>
    obtain ⟨⟨value, hvalue⟩, -⟩ := generate_passing hd ht hgood hgood' hdays htimes
    rw [hvalue]
    exact ⟨nofun, nofun⟩

end

/-- **Steps and seconds stay inside**, whatever the strategies and whatever is called.  A day
generator never fails for a number of steps, and its dates are those at the numbers of steps up
to the last one; a date-time generator never fails for a number of steps or of seconds either,
and its dates are of the same kind.  So all of them lie in the range. -/
theorem pass_reaches {days times : Strategy} (hdays : days.Ranged)
    (htimes : times.Ranged) (range : InstantRange) (unique : Bool)
    (streams : Streams) (calls : List Machine.Call) :
    (let m := Days.machine range.days days.distribution unique
      let r := m.run calls (.start .new streams)
      (∀ step, (m.generate r.state).1 ≠ .error (.dateStepOutside step)) ∧
        ∀ date ∈ r.pass, range.days.Reaches date ∧ range.days.min ≤ date ∧
          date ≤ range.days.max) ∧
      let m := machine range days.distribution times.distribution unique
      let r := m.run calls (.start .new streams)
      (∀ step, (m.generate r.state).1 ≠ .error (.dateStepOutside step)) ∧
        (∀ offset, (m.generate r.state).1 ≠ .error (.timeOffsetOutside offset)) ∧
        ∀ v ∈ r.pass, range.days.Reaches v.date ∧ range.days.min ≤ v.date ∧
          v.date ≤ range.days.max := by
  obtain ⟨live, hd⟩ := Strategy.sustains hdays (fun _ => DateRange.steps_long) unique
  obtain ⟨live', ht⟩ := Strategy.sustains htimes (fun _ => TimeWindow.seconds_long) unique
  have hdate (n : Number) (h : ∃ spec i, range.days.steps = .ok spec ∧ spec.validate = .ok () ∧
      spec.HasPoint i ∧ n = spec.valueAt i) :
      ∃ date, Days.dateAt range.days n = .ok (some date) := by
    obtain ⟨spec, i, hspec, -, hi, rfl⟩ := h
    obtain ⟨date, hdate, -⟩ := DateRange.dateAt_of_point hspec hi
    exact ⟨date, hdate⟩
  have hjoin (n : Number) (h : ∃ spec i, range.times.seconds times.openEnded = .ok spec ∧
      spec.validate = .ok () ∧ spec.HasPoint i ∧ n = spec.valueAt i) (date : Date) :
      ∃ v, join date n = .ok (some v) := by
    obtain ⟨spec, i, hspec, hv, hi, rfl⟩ := h
    exact join_of_point hspec hv hi date
  -- the last call of a run finds the generator in one of its stages
  have hday := (Days.sustained_keeps hd hdate).run (r := .start .new streams) .new calls
  have hinstant := (stage_keeps hd ht hdate hjoin).run (r := .start .new streams)
    (.opening .new .new) calls
  obtain ⟨hsteps, hoffsets⟩ := hinstant.not_outside hd ht hdate hjoin
  -- the dates of the date-times are those of their days
  obtain ⟨inv, hreaches⟩ := Days.machine_reaches hdays range.days unique
  obtain ⟨inv', hnumbers, hnew⟩ :=
    Strategy.numbers_yields htimes (fun _ => TimeWindow.seconds_long) unique
  have hyields := machine_yields (t := times.distribution) hreaches hnumbers hnew
  refine ⟨⟨hday.not_outside hd hdate, fun date h => ?dates⟩, hsteps, hoffsets,
    fun v h => ?instants⟩
  case dates =>
    have hreach := hreaches.pass (Days.sound_new inv) streams calls date h
    exact ⟨hreach, hreach.mem⟩
  case instants =>
    obtain ⟨hreach, -⟩ := hyields.pass
      ⟨Days.sound_new inv, fun _ hnone => absurd hnone (Option.not_mem_none _)⟩ streams calls v h
    exact ⟨hreach, hreach.mem⟩

/-- The last day of each of four months, with a window at the end of the day that has no width. -/
def lateMonthEnds : InstantRange :=
  ⟨Days.monthEnds, ⟨⟨86398, 0, by decide, zero_nanos_lt⟩, ⟨86398, 0, by decide, zero_nanos_lt⟩, 1⟩⟩

theorem pass_reaches_lateMonthEnds :
    let m := machine lateMonthEnds Strategy.wedge.distribution Strategy.plainStep.distribution false
    let r := m.run [.init ⟨{}, 0⟩, .generate, .generate] (.start .new (.start fun _ => .ofSeed 0))
    r.pass.map (fun v => (v.date.month, v.date.day, v.time.seconds)) =
        [(4, 30, 86399), (1, 31, 86398)] ∧
      (∀ step, (m.generate r.state).1 ≠ .error (.dateStepOutside step)) ∧
      (∀ offset, (m.generate r.state).1 ≠ .error (.timeOffsetOutside offset)) ∧
      ∀ v ∈ r.pass, Days.monthEnds.Reaches v.date ∧ Days.monthEnds.min ≤ v.date ∧
        v.date ≤ Days.monthEnds.max :=
  ⟨by decide, (pass_reaches (fun _ h => by cases h) (fun _ h => by cases h) lateMonthEnds false
    _ _).2⟩

end Instants
end SynthData
