import SynthData.Proofs.Strategy.Strides
import SynthData.Proofs.Temporal.Reach

/-!
# Days and times in strides

Equal steps upwards, without an initial value and without a limit, find every so many indices of a
grid from the first one on (`Walk.Step.strides`), in every pass.  A day generator turns them into
dates, and a window of times into whole seconds.

A date-time generator joins the dates of one walk with the times of the other one in their order.
So a pass is as long as the shorter walk (`Instants.handsOut`), and a walk that has run out does
not begin again.  Whatever has been called before, the date-time number `k` of a pass has the date
`k * a` steps after the first one, and the time `k * b` steps after the least one
(`Instants.pass_strides`).
-/
namespace SynthData

/-! ## Every so many points -/

namespace Walk.Step

/-- Steps upwards are strides. -/
theorem stride_pos {delta : Int64} (hdelta : 0 < delta) : 0 < delta.toInt.toNat := by
  have hpos : 0 < delta.toInt := Int64.lt_iff_toInt_lt.mp hdelta
  omega

/-- Every so many indices below a bound, from zero on. -/
def strides (count stride : Nat) : List Nat :=
  (List.range ((count - 1) / stride + 1)).map (· * stride)

theorem getElem?_strides {count stride : Nat} (hcount : 0 < count) (hstride : 0 < stride) (k : Nat) :
    (strides count stride)[k]? = if k * stride < count then some (k * stride) else none := by
  have hiff : k < (count - 1) / stride + 1 ↔ k * stride < count := by
    rw [Nat.lt_succ_iff, Nat.le_div_iff_mul_le hstride]
    omega
  rw [strides, getElem?_map_range]
  simp only [hiff]

theorem lt_of_mem_strides {count stride i : Nat} (hcount : 0 < count) (hstride : 0 < stride)
    (hi : i ∈ strides count stride) : i < count := by
  obtain ⟨k, hk⟩ := List.mem_iff_getElem?.mp hi
  rw [getElem?_strides hcount hstride] at hk
  split at hk
  · next hlt => exact Option.some.inj hk ▸ hlt
  · cases hk

/-- **Equal steps upwards find every so many indices**, from the first one on. -/
theorem goes_strides {delta : Int64} (hdelta : 0 < delta) (spec : Spec) :
    ((Walk.step (.new delta none none)).rewind spec).Goes
      fun k => (strides spec.sampleCount delta.toInt.toNat)[k]? := by
  have hpos : 0 < delta.toInt := Int64.lt_iff_toInt_lt.mp hdelta
  have hvisited : visited spec.sampleCount delta.toInt =
      fun k => (strides spec.sampleCount delta.toInt.toNat)[k]? := by
    funext k
    rw [getElem?_strides spec.sampleCount_pos (stride_pos hdelta), visited, if_neg hpos.not_gt,
      show delta.toInt.natAbs = delta.toInt.toNat by omega]
  exact hvisited ▸ goes_visited spec delta

end Walk.Step

/-- **A grid whose walk draws nothing hands out the same points in every pass.** -/
theorem Grid.supplies_order (owner : String) {spec : Spec} {w : Walk} {order : List Nat}
    (hv : spec.validate = .ok ()) (hw : w.Drawless)
    (hgoes : (w.rewind spec).Goes fun k => order[k]?) (context : Context) :
    (Grid.machine owner Walk.kind).Supplies context (· = .new spec w)
      (Grid.Follows spec (w.rewind spec)) (· = order.map spec.valueAt) := by
  have hpass (rng : Rng) : (Grid.machine owner Walk.kind).HandsOut (Grid.begun spec w rng)
      (order.map spec.valueAt) := by
    intro k
    rw [Grid.replies_begun hgoes rng k, List.getElem?_map]
  have hreturns (rng : Rng) := Grid.returns hw owner spec rng
  refine ⟨?init, ?generate, ?reset⟩
  case init =>
    rintro _ streams rfl
    rw [Grid.init_new hv]
    exact ⟨rfl, (hreturns _).begun, _, rfl, hpass _⟩
  case generate =>
    rintro g ⟨walk, rng, hwalk, hbegun⟩
    exact (hreturns rng).generate _ ⟨walk, rng, hwalk, hbegun⟩
  case reset =>
    rintro _ streams ⟨walk, rng, hwalk, hbegun⟩
    have hagain := hpass rng
    rw [Grid.begun, ← hbegun] at hagain
    exact ⟨rfl, ((hreturns rng).reset _ streams ⟨walk, rng, hwalk, hbegun⟩).2.1, _, rfl, hagain⟩

/-- **Equal steps upwards hand out every so many points of a range**, in every pass. -/
theorem Strategy.step_supplies {delta : Int64} (hdelta : 0 < delta) {spec : Spec}
    (hv : spec.validate = .ok ()) (unique : Bool) :
    ∃ numbers live, (step delta none none).numbers spec unique = .ok numbers ∧
      ∀ context, NumberGen.machine.Supplies context (· = numbers) live
        (· = (Walk.Step.strides spec.sampleCount delta.toInt.toNat).map spec.valueAt) := by
  have hgrid (context : Context) := (Grid.supplies_order NumberGen.stepOwner hv
    (show Walk.Drawless (.step (.new delta none none)) from trivial)
    (Walk.Step.goes_strides hdelta spec) context).embed (NumberGen.embeds_grid _)
  exact ⟨_, _, numbers_step_new hv fun _ => (Int64.ne_of_lt hdelta).symm,
    fun context => (hgrid context).narrow fun g hg => ⟨_, rfl, hg⟩⟩

/-! ## Dates -/

namespace DateRange

variable {range : DateRange}

/-- The date after a number of steps, or the first one if the calendar does not reach so far. -/
def dateAfter (range : DateRange) (steps : Nat) : Date :=
  (range.granularity.advance? range.min steps).getD range.min

/-- Up to the last step the calendar reaches so far. -/
theorem advance?_dateAfter {last steps : Nat}
    (h : range.granularity.lastStep range.min range.max = .ok last) (hle : steps ≤ last) :
    range.granularity.advance? range.min steps = some (range.dateAfter steps) := by
  obtain ⟨date, hdate, -⟩ := (Granularity.le_lastStep_iff h steps).mp hle
  rw [dateAfter, hdate, Option.getD_some]

/-- Numbers of steps in strides lead to the dates after so many steps. -/
theorem leadsTo_strides {last stride : Nat} (hstride : 0 < stride)
    (h : range.granularity.lastStep range.min range.max = .ok last) :
    Days.LeadsTo range (· = (Walk.Step.strides (last + 1) stride).map range.dateAfter)
      ((Walk.Step.strides (last + 1) stride).map (Spec.indices (last + 1)).valueAt) := by
  obtain ⟨hn, -⟩ := steps_eq_indices h
  have hdate {i : Nat} (hi : i ∈ Walk.Step.strides (last + 1) stride) :
      range.dateOf? ((Spec.indices (last + 1)).valueAt i) = some (range.dateAfter i) := by
    have hlt := Walk.Step.lt_of_mem_strides (Nat.succ_pos last) hstride hi
    rw [dateOf?_valueAt hn hlt, advance?_dateAfter h (Nat.le_of_lt_succ hlt)]
  refine ⟨?_, ?_⟩
  · intro step hstep
    obtain ⟨i, hi, rfl⟩ := List.mem_map.mp hstep
    exact ⟨_, hdate hi⟩
  · show List.filterMap _ (List.map _ _) = _
    rw [List.filterMap_map, ← List.filterMap_eq_map]
    exact List.filterMap_congr fun i hi => hdate hi

end DateRange

/-! ## Times -/

namespace TimeWindow

variable {w : TimeWindow}

/-- The last second of a window that is open if it has no width. -/
def openEnd (w : TimeWindow) : Nat := if w.min = w.max then lastSecond else w.max.seconds

/-- The whole second after a number of steps, or the least time if the day does not reach so far. -/
def timeAfter (w : TimeWindow) (steps : Nat) : TimeOfDay :=
  (TimeOfDay.ofSeconds? (w.min.seconds + steps * w.granularity.toInt.toNat)).getD w.min

theorem openEnd_lt (w : TimeWindow) : w.openEnd < secondsPerDay := by
  unfold openEnd
  split
  · decide
  · exact w.max.seconds_lt

/-- **Up to the end of the window the day reaches so far.** -/
theorem timeAfter_of_le {steps : Nat}
    (hle : w.min.seconds + steps * w.granularity.toInt.toNat ≤ w.openEnd) :
    (w.timeAfter steps).seconds = w.min.seconds + steps * w.granularity.toInt.toNat ∧
      (w.timeAfter steps).nanos = 0 := by
  have hlt := hle.trans_lt w.openEnd_lt
  rw [timeAfter, TimeOfDay.ofSeconds?, dif_pos hlt]
  exact ⟨rfl, rfl⟩

/-- The seconds of an open window. -/
theorem seconds_open (hg : 0 < w.granularity) (hle : w.min ≤ w.max) :
    w.seconds true =
      .ok (.long (Int64.ofNat w.min.seconds) (Int64.ofNat w.openEnd) w.granularity) := by
  unfold seconds openEnd
  rw [if_neg (Int64.not_le.mpr hg), if_neg hle]
  by_cases h : w.min = w.max
  · simp [h]
  · simp [h]

section

variable (hg : 0 < w.granularity) (hle : w.min ≤ w.max)

include hg hle

theorem validate_open :
    (Spec.long (Int64.ofNat w.min.seconds) (Int64.ofNat w.openEnd) w.granularity).validate =
      .ok () := by
  have hlast : w.min.seconds ≤ w.openEnd := by
    unfold openEnd
    split
    · exact Nat.le_of_lt_succ w.min.seconds_lt
    · have hafter : ¬ (w.max.seconds < w.min.seconds ∨
        (w.max.seconds = w.min.seconds ∧ w.max.nanos < w.min.nanos)) := hle
      omega
  refine Spec.validate_long.mpr ⟨?_, Int64.lt_iff_toInt_lt.mp hg⟩
  rw [toInt_ofNat_second w.min.seconds_lt, toInt_ofNat_second w.openEnd_lt]
  exact Int.ofNat_le.mpr hlast

/-- The points of an open window are the seconds up to its end. -/
theorem lt_sampleCount_open {steps : Nat} :
    steps < (Spec.long (Int64.ofNat w.min.seconds) (Int64.ofNat w.openEnd)
        w.granularity).sampleCount ↔
      w.min.seconds + steps * w.granularity.toInt.toNat ≤ w.openEnd := by
  obtain ⟨hordered, hpos⟩ := Spec.validate_long.mp (validate_open hg hle)
  have hday := w.openEnd_lt
  rw [toInt_ofNat_second w.min.seconds_lt, toInt_ofNat_second hday] at hordered
  have hspan : ((w.openEnd : Int) - w.min.seconds).toNat = w.openEnd - w.min.seconds := by omega
  have hunit : w.granularity.toInt.toNat.max 1 = w.granularity.toInt.toNat :=
    Nat.max_eq_left (by omega)
  have hfew : (w.openEnd - w.min.seconds) / w.granularity.toInt.toNat + 1 ≤ maxWord := by
    have hdiv := Nat.div_le_self (w.openEnd - w.min.seconds) w.granularity.toInt.toNat
    have hword : secondsPerDay ≤ maxWord := by decide
    omega
  have hcount : (Spec.long (Int64.ofNat w.min.seconds) (Int64.ofNat w.openEnd)
      w.granularity).sampleCount =
        (w.openEnd - w.min.seconds) / w.granularity.toInt.toNat + 1 := by
    rw [Spec.sampleCount, toInt_ofNat_second w.min.seconds_lt, toInt_ofNat_second hday, hspan,
      hunit]
    exact Nat.min_eq_left hfew
  rw [hcount, Nat.lt_succ_iff, Nat.le_div_iff_mul_le (by omega)]
  omega

/-- **The point after a number of steps is the time after so many steps.** -/
theorem valueAt_open {steps : Nat}
    (hsteps : w.min.seconds + steps * w.granularity.toInt.toNat ≤ w.openEnd) :
    (Spec.long (Int64.ofNat w.min.seconds) (Int64.ofNat w.openEnd) w.granularity).valueAt steps =
      .long (Int64.ofNat (w.timeAfter steps).seconds) := by
  have hv := validate_open hg hle
  obtain ⟨-, hpos⟩ := Spec.validate_long.mp hv
  obtain ⟨v, hvalue, hint⟩ := Spec.valueAt_long hpos
    (Spec.hasPoint_of_lt hv ((lt_sampleCount_open hg hle).mpr hsteps))
  rw [hvalue, (timeAfter_of_le hsteps).1]
  congr 1
  rw [← Int64.toInt_inj, hint, toInt_ofNat_second w.min.seconds_lt,
    toInt_ofNat_second (hsteps.trans_lt w.openEnd_lt), Nat.cast_add, Nat.cast_mul,
    Int.toNat_of_nonneg hpos.le]

end

/-- The times at every so many points of an open window. -/
def strides (w : TimeWindow) (stride : Nat) : List TimeOfDay :=
  (Walk.Step.strides (Spec.long (Int64.ofNat w.min.seconds) (Int64.ofNat w.openEnd)
    w.granularity).sampleCount stride).map w.timeAfter

section

variable {stride : Nat} (hstride : 0 < stride) (hg : 0 < w.granularity) (hle : w.min ≤ w.max)

include hstride hg hle

theorem getElem?_strides (k : Nat) : (w.strides stride)[k]? =
    if w.min.seconds + k * stride * w.granularity.toInt.toNat ≤ w.openEnd then
      some (w.timeAfter (k * stride)) else none := by
  rw [strides, List.getElem?_map, Walk.Step.getElem?_strides (Spec.sampleCount_pos _) hstride]
  simp only [lt_sampleCount_open hg hle]
  split
  · rw [Option.map_some]
  · rw [Option.map_none]

theorem le_openEnd_of_mem {i : Nat} (hi : i ∈ Walk.Step.strides (Spec.long
    (Int64.ofNat w.min.seconds) (Int64.ofNat w.openEnd) w.granularity).sampleCount stride) :
    w.min.seconds + i * w.granularity.toInt.toNat ≤ w.openEnd :=
  (lt_sampleCount_open hg hle).mp
    (Walk.Step.lt_of_mem_strides (Spec.sampleCount_pos _) hstride hi)

theorem nanos_strides {time : TimeOfDay} (htime : time ∈ w.strides stride) : time.nanos = 0 := by
  obtain ⟨i, hi, rfl⟩ := List.mem_map.mp htime
  exact (timeAfter_of_le (le_openEnd_of_mem hstride hg hle hi)).2

theorem map_seconds_strides :
    (Walk.Step.strides (Spec.long (Int64.ofNat w.min.seconds) (Int64.ofNat w.openEnd)
        w.granularity).sampleCount stride).map (Spec.long (Int64.ofNat w.min.seconds)
          (Int64.ofNat w.openEnd) w.granularity).valueAt =
      (w.strides stride).map fun time => .long (Int64.ofNat time.seconds) := by
  rw [strides, List.map_map]
  exact List.map_congr_left fun i hi => valueAt_open hg hle (le_openEnd_of_mem hstride hg hle hi)

end

end TimeWindow

/-! ## Days and times together -/

namespace Instants

variable {ν τ : Type} {range : InstantRange} {d : Distribution ν} {t : Distribution τ}
  {unique : Bool}

/-- A whole second is joined to any date. -/
theorem join_second {time : TimeOfDay} (h : time.nanos = 0) (date : Date) :
    join date (.long (Int64.ofNat time.seconds)) = .ok (some ⟨date, time⟩) := by
  have hint := TimeWindow.toInt_ofNat_second time.seconds_lt
  have hpos : 0 ≤ Int64.ofNat time.seconds :=
    Int64.le_iff_toInt_le.mpr (by rw [hint]; exact Int.natCast_nonneg _)
  obtain ⟨seconds, nanos, hseconds, hnanos⟩ := time
  obtain rfl : nanos = 0 := h
  simp only [join, Number.toInt64, if_pos hpos, hint, Int.toNat_natCast, TimeOfDay.ofSeconds?,
    dif_pos hseconds]

/-- Where the days or the times have run out there are no date-times any more. -/
theorem handsOut_nil {days : Days ν} {s : τ} {dates : List Date}
    (hd : (Days.machine range.days d unique).HandsOut days dates)
    (hended : dates = [] ∨ t.machine.HandsOut s []) :
    (machine range d t unique).HandsOut ⟨days, some s, .running⟩ [] := by
  refine .nil (fun g => ∃ days s dates, (Days.machine range.days d unique).HandsOut days dates ∧
    (dates = [] ∨ t.machine.HandsOut s []) ∧ g = ⟨days, some s, .running⟩) ?_
    ⟨days, s, dates, hd, hended, rfl⟩
  rintro _ ⟨days, s, dates, hd, hended, rfl⟩
  cases dates with
  | nil =>
    obtain ⟨days', hday, hd'⟩ := hd.ended
    simp only [machine, emit, Phase.requireRunning, hday]
    exact ⟨trivial, days', s, [], hd', Or.inl rfl, rfl⟩
  | cons date dates =>
    obtain ⟨days', hday, hd'⟩ := hd.head
    obtain ⟨s', htime, hs'⟩ := (hended.resolve_left (List.cons_ne_nil _ _)).ended
    simp only [machine, emit, Phase.requireRunning, hday, htime]
    exact ⟨trivial, days', s', dates, hd', Or.inr hs', rfl⟩

/-- **A date-time generator joins days and times in their order**, and runs out with the first of
them that does. -/
theorem handsOut {days : Days ν} {s : τ} {dates : List Date} {times : List TimeOfDay}
    (hd : (Days.machine range.days d unique).HandsOut days dates)
    (hs : t.machine.HandsOut s (times.map fun time => .long (Int64.ofNat time.seconds)))
    (hwhole : ∀ time ∈ times, time.nanos = 0) :
    (machine range d t unique).HandsOut ⟨days, some s, .running⟩
      (List.zipWith DateTime.mk dates times) := by
  induction dates generalizing days s times with
  | nil => exact handsOut_nil hd (Or.inl rfl)
  | cons date dates ih =>
    cases times with
    | nil => exact handsOut_nil hd (Or.inr hs)
    | cons time times =>
      obtain ⟨days', hday, hd'⟩ := hd.head
      obtain ⟨s', htime, hs'⟩ := hs.head
      have hemit : (machine range d t unique).generate ⟨days, some s, .running⟩ =
          (.ok (some ⟨date, time⟩), ⟨days', some s', .running⟩) := by
        simp only [machine, emit, Phase.requireRunning, hday, htime,
          join_second (hwhole time List.mem_cons_self)]
      rw [List.zipWith_cons_cons]
      refine .cons (by rw [hemit]) ?_
      rw [hemit]
      exact ih hd' hs' fun time hmem => hwhole time (List.mem_cons_of_mem _ hmem)

/-- A running date-time generator whose days and times are in the course of passes. -/
def Passing (live : Days ν → Prop) (live' : τ → Prop) (g : Instants ν τ) : Prop :=
  ∃ days s, live days ∧ live' s ∧ g = ⟨days, some s, .running⟩

/-- **The passes of a date-time generator are those of its days and its times.** -/
theorem machine_supplies {spec : Spec} {numbers : τ} {context : Context} {live : Days ν → Prop}
    {live' : τ → Prop} {dates : List Date} {times : List TimeOfDay}
    (hspec : range.times.seconds t.openEnded = .ok spec)
    (hnumbers : t.numbers spec unique = .ok numbers)
    (hd : (Days.machine range.days d unique).Supplies context (· = .new) live (· = dates))
    (ht : t.machine.Supplies context (· = numbers) live'
      (· = times.map fun time => .long (Int64.ofNat time.seconds)))
    (hwhole : ∀ time ∈ times, time.nanos = 0) :
    (machine range d t unique).Supplies context (· = .new) (Passing live live')
      (· = List.zipWith DateTime.mk dates times) := by
  refine ⟨?init, ?generate, ?reset⟩
  case init =>
    rintro _ streams rfl
    obtain ⟨days, streams', hinit, hlive, _, rfl, hdays⟩ := (hd.init .new streams rfl).exists_eq
    obtain ⟨s, streams'', hinit', hlive', _, rfl, htimes⟩ :=
      (ht.init numbers streams' rfl).exists_eq
    have hresult : (machine range d t unique).init context .new streams =
        (.ok (), ⟨days, some s, .running⟩, streams'') := by
      simp only [machine, init, new, Phase.requireCreated, hspec, hnumbers, hinit, hinit']
    rw [hresult]
    exact ⟨rfl, ⟨days, s, hlive, hlive', rfl⟩, _, rfl, handsOut hdays htimes hwhole⟩
  case generate =>
    rintro _ ⟨days, s, hlive, hlive', rfl⟩
    have hnext := hd.generate days hlive
    have hnext' := ht.generate s hlive'
    rcases hday : (Days.machine range.days d unique).generate days with ⟨_ | _ | date, days'⟩
    all_goals rw [hday] at hnext
    · simpa only [machine, emit, Phase.requireRunning, hday] using ⟨days', s, hnext, hlive', rfl⟩
    · simpa only [machine, emit, Phase.requireRunning, hday] using ⟨days', s, hnext, hlive', rfl⟩
    · rcases htime : t.machine.generate s with ⟨_ | _ | offset, s'⟩
      all_goals
        rw [htime] at hnext'
        simpa only [machine, emit, Phase.requireRunning, hday, htime] using
          ⟨days', s', hnext, hnext', rfl⟩
  case reset =>
    rintro _ streams ⟨days, s, hlive, hlive', rfl⟩
    obtain ⟨days', streams', hreset, hlive, _, rfl, hdays⟩ :=
      (hd.reset days streams hlive).exists_eq
    obtain ⟨s', streams'', hreset', hlive', _, rfl, htimes⟩ :=
      (ht.reset s streams' hlive').exists_eq
    have hresult : (machine range d t unique).reset ⟨days, some s, .running⟩ streams =
        (.ok (), ⟨days', some s', .running⟩, streams'') := by
      simp only [machine, hreset, hreset']
    rw [hresult]
    exact ⟨rfl, ⟨days', s', hlive, hlive', rfl⟩, _, rfl, handsOut hdays htimes hwhole⟩

variable (range d t unique) in
theorem orderly : (machine range d t unique).Orderly where
  init := by
    rintro context ⟨days, times, phase⟩ streams hphase
    cases phase with
    | created => exact absurd rfl hphase
    | running | closed => rfl
  generate := by
    rintro ⟨days, times, phase⟩ hphase
    cases phase with
    | running => exact absurd rfl hphase
    | created | closed => rfl
  reset_created := by
    rintro ⟨days, times, _⟩ streams rfl
    rfl
  reset_closed := by
    rintro ⟨days, times, _⟩ streams rfl
    rfl
  close := fun _ => rfl

/-! ## Strides through both -/

section

variable {σ : Type} {m : Machine σ DateTime} {s : σ} {a b : Int64} {last : Nat}

/-- Neither the dates nor the times have run out after `k` strides. -/
def Within (range : InstantRange) (a b : Int64) (last k : Nat) : Prop :=
  k * a.toInt.toNat ≤ last ∧
    range.times.min.seconds + k * b.toInt.toNat * range.times.granularity.toInt.toNat ≤
      range.times.openEnd

/-- What has run out after some strides has run out after more of them, too. -/
theorem Within.of_le {j k : Nat} (h : Within range a b last k) (hle : j ≤ k) :
    Within range a b last j := by
  obtain ⟨hdays, htimes⟩ := h
  have hday : j * a.toInt.toNat ≤ k * a.toInt.toNat := Nat.mul_le_mul_right _ hle
  have htime : j * b.toInt.toNat * range.times.granularity.toInt.toNat ≤
      k * b.toInt.toNat * range.times.granularity.toInt.toNat :=
    Nat.mul_le_mul_right _ (Nat.mul_le_mul_right _ hle)
  exact ⟨hday.trans hdays, by omega⟩

/-- **A pass in strides.**  Call `k` hands out the date `k * a` steps after the first one, at the
whole second `k * b` steps after the least time.  From the first `k` on for which the dates or the
times have run out there is nothing. -/
def Strides (range : InstantRange) (a b : Int64) (m : Machine σ DateTime) (s : σ) : Prop :=
  ∃ last, range.days.granularity.lastStep range.days.min range.days.max = .ok last ∧ ∀ k,
    (Within range a b last k → ∃ date time,
      range.days.granularity.advance? range.days.min (k * a.toInt.toNat) = some date ∧
      time.seconds = range.times.min.seconds +
        k * b.toInt.toNat * range.times.granularity.toInt.toNat ∧
      time.nanos = 0 ∧ m.answer k s = .ok (some ⟨date, time⟩)) ∧
    (¬ Within range a b last k → ∀ j, k ≤ j → m.answer j s = .ok none)

variable (ha : 0 < a) (hb : 0 < b) (hg : 0 < range.times.granularity)
  (hle : range.times.min ≤ range.times.max)
  (hlast : range.days.granularity.lastStep range.days.min range.days.max = .ok last)

include ha hb hg hle hlast

theorem strides_of_handsOut (h : m.HandsOut s (List.zipWith DateTime.mk
      ((Walk.Step.strides (last + 1) a.toInt.toNat).map range.days.dateAfter)
      (range.times.strides b.toInt.toNat))) : Strides range a b m s := by
  have hdates (k : Nat) : ((Walk.Step.strides (last + 1) a.toInt.toNat).map
      range.days.dateAfter)[k]? = if k * a.toInt.toNat ≤ last then
        some (range.days.dateAfter (k * a.toInt.toNat)) else none := by
    rw [List.getElem?_map, Walk.Step.getElem?_strides (Nat.succ_pos last) (Walk.Step.stride_pos ha)]
    simp only [Nat.lt_succ_iff]
    split
    · rw [Option.map_some]
    · rw [Option.map_none]
  have htimes (k : Nat) := TimeWindow.getElem?_strides (Walk.Step.stride_pos hb) hg hle k
  refine ⟨last, hlast, fun k => ⟨fun hk => ?_, fun hk j hj => ?_⟩⟩
  · obtain ⟨hseconds, hnanos⟩ := TimeWindow.timeAfter_of_le hk.2
    refine ⟨_, _, DateRange.advance?_dateAfter hlast hk.1, hseconds, hnanos, ?_⟩
    rw [h k, List.getElem?_zipWith, hdates, htimes, if_pos hk.1, if_pos hk.2]
  · rw [h j, List.getElem?_zipWith, hdates, htimes]
    have hj' : ¬ Within range a b last j := fun hj' => hk (hj'.of_le hj)
    by_cases hday : j * a.toInt.toNat ≤ last
    · rw [if_pos hday, if_neg fun htime => hj' ⟨hday, htime⟩]
    · rw [if_neg hday]

end

/-- **Days and times advance in lock step.**  For a range whose bounds are in order, with steps that
lead somewhere, and for equal steps upwards, `a` through the days and `b` through the times, a
generator that is still new can be initialized and one that is not closed can be reset, after any
history of calls.  What follows is a pass in strides (`Strides`): a window without width runs on to
the last second of the day, and no time of day goes round the end of it. -/
theorem pass_strides (range : InstantRange) {a b : Int64} (ha : 0 < a) (hb : 0 < b)
    (hdates : range.days.min ≤ range.days.max) (hzero : range.days.granularity.isZero = false)
    (htimes : range.times.min ≤ range.times.max) (hg : 0 < range.times.granularity)
    (unique : Bool) (streams : Streams) (calls : List Machine.Call) :
    let m := machine range (Strategy.step a none none).distribution
      (Strategy.step b none none).distribution unique
    let r := m.run calls (.start .new streams)
    (r.state.phase = .created → ∀ context,
        (m.init context r.state r.streams).1 = .ok () ∧
          Strides range a b m (m.init context r.state r.streams).2.1) ∧
      (r.state.phase ≠ .closed →
        (m.reset r.state r.streams).1 = .ok () ∧
          Strides range a b m (m.reset r.state r.streams).2.1) := by
  intro m r
  obtain ⟨last, hlast⟩ := DateRange.lastStep_eq_ok hzero hdates
  obtain ⟨hn, hsteps⟩ := DateRange.steps_eq_indices hlast
  obtain ⟨steps, live, hsteps', hday⟩ :=
    Strategy.step_supplies ha (Spec.validate_indices hn) unique
  rw [Spec.sampleCount_indices hn (Nat.succ_pos last)] at hday
  obtain ⟨seconds, live', hseconds', htime⟩ :=
    Strategy.step_supplies hb (TimeWindow.validate_open hg htimes) unique
  rw [TimeWindow.map_seconds_strides (Walk.Step.stride_pos hb) hg htimes] at htime
  have hopen : (Strategy.step b none none).distribution.openEnded = true :=
    Bool.and_eq_true_iff.mpr ⟨decide_eq_true hb, rfl⟩
  have hdays (context : Context) :
      (Days.machine range.days (Strategy.step a none none).distribution unique).Supplies context
        (· = .new) (Days.Passing live)
        (· = (Walk.Step.strides (last + 1) a.toInt.toNat).map range.days.dateAfter) := by
    refine Days.machine_supplies hsteps hsteps' (hday context) ?_
    rintro _ rfl
    exact DateRange.leadsTo_strides (Walk.Step.stride_pos ha) hlast
  have hm (context : Context) : m.Supplies context (· = .new) (Passing (Days.Passing live) live')
      (· = List.zipWith DateTime.mk
        ((Walk.Step.strides (last + 1) a.toInt.toNat).map range.days.dateAfter)
        (range.times.strides b.toInt.toNat)) :=
    machine_supplies (hopen ▸ TimeWindow.seconds_open hg htimes) hseconds' (hdays context)
      (htime context) fun _ => TimeWindow.nanos_strides (Walk.Step.stride_pos hb) hg htimes
  have hrunning (g : Instants NumberGen NumberGen) (hg : g.Passing (Days.Passing live) live') :
      g.phase = .running := by
    obtain ⟨days, s, -, -, rfl⟩ := hg
    rfl
  obtain ⟨hinit, hreset⟩ :=
    Machine.Supplies.always hm (orderly range _ _ unique) hrunning rfl streams calls
  have hstrides {g : Instants NumberGen NumberGen} (h : ∃ values, values = List.zipWith DateTime.mk
      ((Walk.Step.strides (last + 1) a.toInt.toNat).map range.days.dateAfter)
      (range.times.strides b.toInt.toNat) ∧ m.HandsOut g values) : Strides range a b m g := by
    obtain ⟨_, rfl, h⟩ := h
    exact strides_of_handsOut ha hb hg htimes hlast h
  exact ⟨fun hcreated context =>
      ⟨(hinit hcreated context).answer, hstrides (hinit hcreated context).pass⟩,
    fun hopen => ⟨(hreset hopen).answer, hstrides (hreset hopen).pass⟩⟩

/-- Month ends whose times run out at midnight, one after the other, after a reset. -/
theorem pass_strides_lateMonthEnds :
    let m := machine lateMonthEnds Strategy.plainStep.distribution Strategy.plainStep.distribution true
    let r := m.run [.init ⟨{}, 0⟩, .generate] (.start .new (.start fun _ => .ofSeed 0))
    let begun := (m.reset r.state r.streams).2.1
    r.state.phase ≠ .closed ∧ (m.reset r.state r.streams).1 = .ok () ∧
      Strides lateMonthEnds 1 1 m begun ∧
      (m.stream 5 begun).map (fun v => (v.date.month, v.date.day, v.time.seconds)) =
        [(1, 31, 86398), (2, 29, 86399)] := by
  intro m r begun
  have hopen : r.state.phase ≠ .closed := by decide
  obtain ⟨hanswer, hstrides⟩ :=
    (pass_strides lateMonthEnds (a := 1) (b := 1) (by decide) (by decide) (by decide) (by decide)
      (by decide) (by decide) true (.start fun _ => .ofSeed 0) [.init ⟨{}, 0⟩, .generate]).2 hopen
  exact ⟨hopen, hanswer, hstrides, by decide⟩

end Instants
end SynthData
