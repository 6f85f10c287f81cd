import SynthData.Proofs.Calendar.LastStep
import SynthData.Proofs.Strategy.Coverage
import SynthData.Proofs.Temporal.Days

/-!
# All dates of a range

The numbers of steps that do not pass the end of a range are those up to the last step, and
a day generator asks its distribution for them as for the positions of a list
(`DateRange.steps_eq_indices`).  An exhaustive strategy hands out all of them, and each one
leads to a date of its own: a pass has all dates of the range (`Days.supplies_of_exhaustive`).

Whatever the calls were that came before, every further `init` or `reset` that is not refused
for its phase begins a complete pass (`Days.pass_complete`).
-/
namespace SynthData

namespace DateRange

variable {range : DateRange}

/-- The dates are those that a number of steps leads to within the range, each of them once. -/
structure Dates (range : DateRange) (dates : List Date) : Prop where
  nodup : dates.Nodup
  mem_iff : ∀ date, date ∈ dates ↔
    ∃ steps, range.granularity.advance? range.min steps = some date ∧ date ≤ range.max

/-- The date that a chosen number of steps leads to. -/
def dateOf? (range : DateRange) (step : Number) : Option Date :=
  range.granularity.advance? range.min step.toInt64.toInt.toNat

/-- A range whose steps lead somewhere has a last step. -/
theorem lastStep_eq_ok (hzero : range.granularity.isZero = false) (hle : range.min ≤ range.max) :
    ∃ last, range.granularity.lastStep range.min range.max = .ok last := by
  have hforward : ¬ range.max < range.min := Int.not_lt.mpr hle
  unfold Granularity.lastStep
  rw [if_neg (by simp [hzero]), if_neg hforward]
  exact ⟨_, rfl⟩

theorem dateOf?_valueAt {n i : Nat} (hn : n ≤ 2 ^ 63) (hi : i < n) :
    range.dateOf? ((Spec.indices n).valueAt i) = range.granularity.advance? range.min i := by
  obtain ⟨v, hv, -⟩ :=
    Spec.valueAt_long (by decide) ((Spec.hasPoint_indices hn (by omega)).mpr hi)
  have hindex := Spec.toIndex_valueAt hn hi
  rw [Spec.indices, hv] at hindex ⊢
  exact congrArg _ hindex

/-- **The points of the numbers of steps lead to the dates of the range.** -/
theorem dates_of_points {last : Nat} {order : List Number}
    (h : range.granularity.lastStep range.min range.max = .ok last)
    (horder : Grid.Points (.indices (last + 1)) order) :
    (∀ step ∈ order, ∃ date, range.dateOf? step = some date) ∧
      range.Dates (order.filterMap range.dateOf?) := by
  obtain ⟨hn, -⟩ := steps_eq_indices h
  have hzero := isZero_of_lastStep h
  have hstep (step : Number) :
      step ∈ order ↔ ∃ i < last + 1, step = (Spec.indices (last + 1)).valueAt i := by
    rw [horder.mem_iff, Spec.sampleCount_indices hn (Nat.succ_pos last)]
  refine ⟨?_, ?_, fun date => ?_⟩
  · intro step hmem
    obtain ⟨i, hi, rfl⟩ := (hstep step).mp hmem
    obtain ⟨date, hdate, -⟩ := (Granularity.le_lastStep_iff h i).mp (Nat.le_of_lt_succ hi)
    exact ⟨date, by rw [dateOf?_valueAt hn hi, hdate]⟩
  · refine List.pairwise_filterMap.mpr (horder.nodup.imp_of_mem ?_)
    intro step step' hmem hmem' hne date hdate date' hdate' heq
    obtain ⟨i, hi, rfl⟩ := (hstep step).mp hmem
    obtain ⟨j, hj, rfl⟩ := (hstep step').mp hmem'
    rw [dateOf?_valueAt hn hi] at hdate
    rw [dateOf?_valueAt hn hj] at hdate'
    -- one date has one number of steps
    obtain rfl := Granularity.advance?_inj hzero (heq ▸ hdate) hdate'
    exact hne rfl
  · rw [List.mem_filterMap]
    constructor
    · rintro ⟨step, hmem, hdate⟩
      obtain ⟨i, hi, rfl⟩ := (hstep step).mp hmem
      obtain ⟨date', hdate', hle⟩ := (Granularity.le_lastStep_iff h i).mp (Nat.le_of_lt_succ hi)
      rw [dateOf?_valueAt hn hi] at hdate
      obtain rfl := Option.some.inj (hdate'.symm.trans hdate)
      exact ⟨i, hdate, hle⟩
    · rintro ⟨i, hdate, hle⟩
      have hi : i < last + 1 :=
        Nat.lt_succ_of_le ((Granularity.le_lastStep_iff h i).mpr ⟨date, hdate, hle⟩)
      exact ⟨_, (hstep _).mpr ⟨i, hi, rfl⟩, by rw [dateOf?_valueAt hn hi, hdate]⟩

end DateRange

namespace Days

variable {ν : Type} {range : DateRange} {d : Distribution ν} {unique : Bool} {s : Strategy}

/-! ## Passes -/

/-- A day generator hands out the dates at the numbers of steps. -/
theorem handsOut {steps : ν} {order : List Number} (h : d.machine.HandsOut steps order)
    (hdates : ∀ step ∈ order, ∃ date, range.dateOf? step = some date) :
    (machine range d unique).HandsOut ⟨some steps, .running⟩ (order.filterMap range.dateOf?) := by
  induction order generalizing steps with
  | nil =>
    refine .nil (fun g => ∃ steps, d.machine.HandsOut steps [] ∧ g = ⟨some steps, .running⟩) ?_
      ⟨steps, h, rfl⟩
    rintro _ ⟨steps, hsteps, rfl⟩
    obtain ⟨steps', hgenerate, hnext⟩ := hsteps.ended
    simp only [machine, emit, Phase.requireRunning, hgenerate]
    exact ⟨trivial, steps', hnext, rfl⟩
  | cons step order ih =>
    obtain ⟨steps', hgenerate, hnext⟩ := h.head
    obtain ⟨date, hdate⟩ := hdates step List.mem_cons_self
    have hemit : (machine range d unique).generate ⟨some steps, .running⟩ =
        (.ok (some date), ⟨some steps', .running⟩) := by
      simp only [machine, emit, Phase.requireRunning, hgenerate, dateAt_eq_some.mpr hdate]
    rw [List.filterMap_cons_some hdate]
    refine .cons (by rw [hemit]) ?_
    rw [hemit]
    exact ih hnext fun step hmem => hdates step (List.mem_cons_of_mem _ hmem)

/-- A running day generator whose numbers of steps are in the course of a pass. -/
def Passing (live : ν → Prop) (g : Days ν) : Prop :=
  ∃ steps, live steps ∧ g = ⟨some steps, .running⟩

/-- All numbers of steps lead to dates, and these make up a pass. -/
def LeadsTo (range : DateRange) (dates : List Date → Prop) (order : List Number) : Prop :=
  (∀ step ∈ order, ∃ date, range.dateOf? step = some date) ∧ dates (order.filterMap range.dateOf?)

section

variable {live : ν → Prop} {full : List Number → Prop} {dates : List Date → Prop}

variable (unique) in
/-- A pass over numbers of steps is one over the dates that they lead to. -/
theorem passes_on (hdates : ∀ order, full order → LeadsTo range dates order)
    {steps : ν} (hlive : live steps) (streams : Streams)
    (h : ∃ order, full order ∧ d.machine.HandsOut steps order) :
    (machine range d unique).Delivers (Passing live) dates
      (.ok (), ⟨some steps, .running⟩, streams) := by
  obtain ⟨order, hfull, horder⟩ := h
  obtain ⟨hstep, hpass⟩ := hdates order hfull
  exact ⟨rfl, ⟨_, hlive, rfl⟩, _, hpass, handsOut horder hstep⟩

/-- **The passes of a day generator are those of its distribution**, as long as the numbers of
steps lead to dates. -/
theorem machine_supplies {spec : Spec} {numbers : ν} {context : Context}
    (hsteps : range.steps = .ok spec) (hnumbers : d.numbers spec unique = .ok numbers)
    (hm : d.machine.Supplies context (· = numbers) live full)
    (hdates : ∀ order, full order → LeadsTo range dates order) :
    (machine range d unique).Supplies context (· = .new) (Passing live) dates where
  init := by
    rintro _ streams rfl
    obtain ⟨steps, streams', hinit, hlive, hpass⟩ := (hm.init numbers streams rfl).exists_eq
    have hresult : (machine range d unique).init context .new streams =
        (.ok (), ⟨some steps, .running⟩, streams') := by
      simp only [machine, init, new, Phase.requireCreated, hsteps, hnumbers, hinit]
    rw [hresult]
    exact passes_on unique hdates hlive streams' hpass
  generate := by
    rintro _ ⟨steps, hlive, rfl⟩
    have hnext := hm.generate steps hlive
    rcases hgenerate : d.machine.generate steps with ⟨_ | _ | step, steps'⟩
    all_goals
      rw [hgenerate] at hnext
      simp only [machine, emit, Phase.requireRunning, hgenerate]
      exact ⟨steps', hnext, rfl⟩
  reset := by
    rintro _ streams ⟨steps, hlive, rfl⟩
    obtain ⟨steps', streams', hreset, hlive, hpass⟩ := (hm.reset steps streams hlive).exists_eq
    have hresult : (machine range d unique).reset ⟨some steps, .running⟩ streams =
        (.ok (), ⟨some steps', .running⟩, streams') := by
      simp only [machine, hreset]
    rw [hresult]
    exact passes_on unique hdates hlive streams' hpass

end

/-! ## Histories -/

variable (range d unique) in
theorem orderly : (machine range d unique).Orderly where
  init := by
    rintro context ⟨steps, phase⟩ streams hphase
    cases phase with
    | created => exact absurd rfl hphase
    | running | closed => rfl
  generate := by
    rintro ⟨steps, phase⟩ hphase
    cases phase with
    | running => exact absurd rfl hphase
    | created | closed => rfl
  reset_created := by
    rintro ⟨steps, _⟩ streams rfl
    rfl
  reset_closed := by
    rintro ⟨steps, _⟩ streams rfl
    rfl
  close := fun _ => rfl

/-- An exhaustive strategy hands out all numbers of steps, and so all dates. -/
theorem supplies_of_exhaustive (hs : s.Exhaustive) (hzero : range.granularity.isZero = false)
    (hle : range.min ≤ range.max) : ∃ live : NumberGen → Prop, ∀ context,
      (machine range s.distribution true).Supplies context (· = .new) (Passing live)
        range.Dates := by
  obtain ⟨last, hlast⟩ := DateRange.lastStep_eq_ok hzero hle
  obtain ⟨hn, hsteps⟩ := DateRange.steps_eq_indices hlast
  obtain ⟨numbers, live, hnumbers, hm⟩ := hs.numbers_supplies (Spec.validate_indices hn)
    fun _ => Spec.lt_sampleCount_indices hn (Nat.succ_pos last)
  exact ⟨live, fun context => machine_supplies hsteps hnumbers (hm context) fun _ =>
    DateRange.dates_of_points hlast⟩

/-- **A day generator without repetitions is complete.**  After any history of calls, `init` of a
generator that is still new succeeds, and so does `reset` of one that is not closed; then the
calls of `generate` hand out each date that a number of steps leads to within the range, each
of them once, and nothing after them. -/
theorem pass_complete (range : DateRange) (hs : s.Exhaustive) (hle : range.min ≤ range.max)
    (hzero : range.granularity.isZero = false) (streams : Streams) (calls : List Machine.Call) :
    let m := machine range s.distribution true
    let r := m.run calls (.start .new streams)
    (r.state.phase = .created → ∀ context,
        (m.init context r.state r.streams).1 = .ok () ∧
          ∃ dates, range.Dates dates ∧ m.HandsOut (m.init context r.state r.streams).2.1 dates) ∧
      (r.state.phase ≠ .closed →
        (m.reset r.state r.streams).1 = .ok () ∧
          ∃ dates, range.Dates dates ∧ m.HandsOut (m.reset r.state r.streams).2.1 dates) := by
  intro m r
  obtain ⟨live, hm⟩ := supplies_of_exhaustive hs hzero hle
  have hrunning (g : Days NumberGen) (hg : g.Passing live) : g.phase = .running := by
    obtain ⟨steps, -, rfl⟩ := hg
    rfl
  obtain ⟨hinit, hreset⟩ :=
    Machine.Supplies.always hm (orderly range s.distribution true) hrunning rfl streams calls
  exact ⟨fun hcreated context => ⟨(hinit hcreated context).answer, (hinit hcreated context).pass⟩,
    fun hopen => ⟨(hreset hopen).answer, (hreset hopen).pass⟩⟩

theorem isDate_januaryEnd : Calendar.IsDate 2024 1 31 := by decide

/-- The last days of the first months of 2024, each a month after the one before. -/
def monthEnds : DateRange :=
  ⟨⟨2024, 1, 31, isDate_januaryEnd⟩, ⟨2024, 4, 30, by decide⟩, ⟨0, 1, 0⟩⟩

theorem pass_complete_monthEnds :
    let m := machine monthEnds Strategy.wedge.distribution true
    let r := m.run [.init ⟨{}, 0⟩, .generate] (.start .new (.start fun _ => .ofSeed 0))
    r.state.phase ≠ .closed ∧ (m.reset r.state r.streams).1 = .ok () ∧
      ∃ dates, monthEnds.Dates dates ∧ m.HandsOut (m.reset r.state r.streams).2.1 dates :=
  ⟨by decide, (pass_complete monthEnds (s := .wedge) trivial (by decide) (by decide)
    (.start fun _ => .ofSeed 0) [.init ⟨{}, 0⟩, .generate]).2 (by decide)⟩

example :
    let m := machine monthEnds Strategy.wedge.distribution true
    (m.stream 5 (m.init ⟨{}, 0⟩ .new (.start fun _ => .ofSeed 0)).2.1).map
      (fun date => (date.month, date.day)) = [(1, 31), (4, 30), (2, 29), (3, 31)] := by
  decide

end Days
end SynthData
