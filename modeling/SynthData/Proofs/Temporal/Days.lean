import Mathlib.Algebra.Group.Nat.Defs
import SynthData.Proofs.Calendar.Steps
import SynthData.Proofs.Grid.Points
import SynthData.Proofs.Generator.Run
import SynthData.Temporal.Instant

/-!
# Days and date-times without repetitions

A day generator asks a distribution for numbers of steps.  If these are used up,
so are the days, because different numbers of steps lead to different dates.

A date-time uses up its day; the time of day does not matter for this.
-/
namespace SynthData

variable {ν τ : Type}

/-- Steps are counted only if a step leads somewhere. -/
theorem DateRange.isZero_of_lastStep {range : DateRange} {last : Nat}
    (h : range.granularity.lastStep range.min range.max = .ok last) :
    range.granularity.isZero = false := by
  unfold Granularity.lastStep at h
  split at h
  · cases h
  · rename_i hzero
    simpa using hzero

theorem DateRange.isZero_of_steps {range : DateRange} {spec : Spec} (h : range.steps = .ok spec) :
    range.granularity.isZero = false := by
  unfold steps at h
  split at h
  · cases h
  · rename_i last hlast
    exact isZero_of_lastStep hlast

/-- The numbers of steps are a valid range that begins with zero. -/
theorem DateRange.steps_eq_ok {range : DateRange} {spec : Spec} (h : range.steps = .ok spec) :
    ∃ last : Int64, spec = .long 0 last 1 ∧ spec.validate = .ok () := by
  unfold steps at h
  split at h
  · cases h
  · rename_i last hlast
    split at h
    · rename_i hle
      obtain rfl := Except.ok.inj h
      refine ⟨_, rfl, Spec.validate_long.mpr ⟨?_, by decide⟩⟩
      rw [Int64.toInt_ofNat_of_lt (by change (last : Int) ≤ 2 ^ 63 - 1 at hle; omega)]
      exact Int.natCast_nonneg last
    · cases h

/-- Numbers of steps are whole numbers. -/
theorem DateRange.steps_long {range : DateRange} {spec : Spec} (h : range.steps = .ok spec) :
    ∃ min max granularity, spec = .long min max granularity := by
  obtain ⟨last, rfl, -⟩ := steps_eq_ok h
  exact ⟨_, _, _, rfl⟩

/-- **The numbers of steps are positions**, one more than the last step: the calendar is short
enough for them. -/
theorem DateRange.steps_eq_indices {range : DateRange} {last : Nat}
    (h : range.granularity.lastStep range.min range.max = .ok last) :
    last + 1 ≤ 2 ^ 63 ∧ range.steps = .ok (.indices (last + 1)) := by
  have hlast := Granularity.lastStep_le h
  have hcalendar := range.max.number_sub_lt range.min
  have hfits : (last : Int) ≤ Int64.maxValue.toInt := by
    change (last : Int) ≤ 2 ^ 63 - 1
    omega
  refine ⟨by omega, ?_⟩
  unfold steps
  rw [h]
  exact if_pos hfits

/-- Numbers of steps are counted up to a last step. -/
theorem DateRange.lastStep_of_steps {range : DateRange} {spec : Spec} (h : range.steps = .ok spec) :
    ∃ last, range.granularity.lastStep range.min range.max = .ok last ∧ last + 1 ≤ 2 ^ 63 ∧
      spec = .indices (last + 1) := by
  obtain ⟨last, hlast⟩ : ∃ last, range.granularity.lastStep range.min range.max = .ok last := by
    unfold steps at h
    split at h
    · cases h
    · exact ⟨_, ‹_›⟩
  obtain ⟨hn, hsteps⟩ := steps_eq_indices hlast
  exact ⟨last, hlast, hn, Except.ok.inj (h.symm.trans hsteps)⟩

namespace Days

variable {range : DateRange} {d : Distribution ν} {unique : Bool}

/-! ## What the calls do -/

/-- Initialization changes nothing, or puts new numbers of steps in place. -/
theorem init_cases (range : DateRange) (d : Distribution ν) (unique : Bool) (context : Context)
    (g : Days ν) (streams : Streams) :
    (init range d unique context g streams).2.1 = g ∨
      ∃ spec steps streams', range.steps = .ok spec ∧ d.numbers spec unique = .ok steps ∧
        (init range d unique context g streams).2.1 =
          ⟨some (d.machine.init context steps streams').2.1, .running⟩ := by
  unfold init
  split
  · exact Or.inl rfl
  · split
    · exact Or.inl rfl
    · rename_i spec hspec
      split
      · exact Or.inl rfl
      · rename_i steps hsteps
        split
        · exact Or.inl rfl
        · rename_i steps' streams' hinit
          exact Or.inr ⟨spec, steps, streams, hspec, hsteps, by rw [hinit]⟩

theorem reset_cases (range : DateRange) (d : Distribution ν) (unique : Bool) (g : Days ν)
    (streams : Streams) :
    (∃ context streams', ((machine range d unique).reset g streams).2.1 =
        (init range d unique context g streams').2.1) ∨
      ((machine range d unique).reset g streams).2.1 = g ∨
      ∃ steps, g.steps = some steps ∧ ((machine range d unique).reset g streams).2.1 =
        ⟨some (d.machine.reset steps streams).2.1, g.phase⟩ := by
  obtain ⟨steps, phase⟩ := g
  cases phase with
  | created => exact Or.inl ⟨streams.defaultContext.1, streams.defaultContext.2, rfl⟩
  | closed => exact Or.inr (Or.inl rfl)
  | running =>
    cases steps with
    | none => exact Or.inr (Or.inl rfl)
    | some steps => exact Or.inr (Or.inr ⟨steps, rfl, rfl⟩)

/-- A day that is handed out is the date at the next number of steps. -/
theorem generate_cases (range : DateRange) (d : Distribution ν) (unique : Bool) (g : Days ν) :
    ((∀ date, ((machine range d unique).generate g).1 ≠ .ok (some date)) ∧
        ((machine range d unique).generate g).2 = g) ∨
      ∃ steps, g.steps = some steps ∧
        ((machine range d unique).generate g).2 = ⟨some (d.machine.generate steps).2, g.phase⟩ ∧
        ∀ date, ((machine range d unique).generate g).1 = .ok (some date) →
          ∃ n, (d.machine.generate steps).1 = .ok (some n) ∧
            dateAt range n = .ok (some date) := by
  obtain ⟨steps, phase⟩ := g
  cases phase with
  | created => exact Or.inl (by simp [machine, Phase.requireRunning])
  | closed => exact Or.inl (by simp [machine, Phase.requireRunning])
  | running =>
    cases steps with
    | none => exact Or.inl (by simp [machine, emit, Phase.requireRunning])
    | some steps =>
      refine Or.inr ⟨steps, rfl, ?_⟩
      rcases h : d.machine.generate steps with ⟨fault | _ | n, steps'⟩
      · simp [machine, emit, Phase.requireRunning, h]
      · simp [machine, emit, Phase.requireRunning, h]
      · simp [machine, emit, Phase.requireRunning, h]

/-! ## Days without repetitions -/

/-- The numbers of steps, if there are any, satisfy an invariant. -/
def Sound (inv : ν → Prop) (g : Days ν) : Prop := ∀ steps ∈ g.steps, inv steps

theorem sound_new (inv : ν → Prop) : Days.new.Sound inv := nofun

/-- A day is pending if it is the date at a pending number of steps. -/
def Pending (range : DateRange) (pending : ν → Number → Prop) (g : Days ν) (date : Date) : Prop :=
  ∃ steps ∈ g.steps, ∃ n, pending steps n ∧ dateAt range n = .ok (some date)

variable {inv : ν → Prop} {pending : ν → Number → Prop}

theorem init_sound (hm : d.machine.Keeps inv)
    (hnew : ∀ spec steps, range.steps = .ok spec → d.numbers spec unique = .ok steps → inv steps)
    (context : Context) {g : Days ν} (streams : Streams) (hg : g.Sound inv) :
    (init range d unique context g streams).2.1.Sound inv := by
  rcases init_cases range d unique context g streams with
    hsame | ⟨spec, steps, streams', hspec, hsteps, hstate⟩
  · rw [hsame]; exact hg
  · rw [hstate]
    intro steps' h
    obtain rfl := Option.some.inj h
    exact hm.init context steps streams' (hnew spec steps hspec hsteps)

theorem machine_keeps (hm : d.machine.Keeps inv)
    (hnew : ∀ spec steps, range.steps = .ok spec → d.numbers spec unique = .ok steps →
      inv steps) : (machine range d unique).Keeps (Sound inv) where
  init := fun context _ streams hg => init_sound hm hnew context streams hg
  generate := by
    intro g hg
    rcases generate_cases range d unique g with ⟨-, hsame⟩ | ⟨steps, hsteps, hstate, -⟩
    · rw [hsame]; exact hg
    · rw [hstate]
      intro steps' h
      obtain rfl := Option.some.inj h
      exact hm.generate steps (hg steps hsteps)
  reset := by
    intro g streams hg
    rcases reset_cases range d unique g streams with
      ⟨context, streams', hinit⟩ | hsame | ⟨steps, hsteps, hstate⟩
    · rw [hinit]; exact init_sound hm hnew context streams' hg
    · rw [hsame]; exact hg
    · rw [hstate]
      intro steps' h
      obtain rfl := Option.some.inj h
      exact hm.reset steps streams (hg steps hsteps)
  close := by
    intro g hg steps h
    obtain ⟨steps', hsteps', rfl⟩ := Option.map_eq_some_iff.mp h
    exact hm.close steps' (hg steps' hsteps')

theorem dateAt_eq_some {n : Number} {date : Date} : dateAt range n = .ok (some date) ↔
    range.granularity.advance? range.min n.toInt64.toInt.toNat = some date := by
  unfold dateAt
  rcases range.granularity.advance? range.min n.toInt64.toInt.toNat with _ | date'
  · simp
  · simp

/-- Different numbers of steps lead to different dates. -/
theorem dateAt_inj (hzero : range.granularity.isZero = false) {v w : Int64} (hv : 0 ≤ v.toInt)
    (hw : 0 ≤ w.toInt) {date : Date} (h : dateAt range (.long v) = .ok (some date))
    (h' : dateAt range (.long w) = .ok (some date)) : v = w := by
  have hsteps := Granularity.advance?_inj hzero (dateAt_eq_some.mp h) (dateAt_eq_some.mp h')
  change v.toInt.toNat = w.toInt.toNat at hsteps
  exact Int64.toInt_inj.mp (by omega)

/-- **Days are used up with the numbers of steps to them.** -/
theorem machine_spends (hm : d.machine.Spends inv pending)
    (hnew : ∀ spec steps, range.steps = .ok spec → d.numbers spec unique = .ok steps → inv steps)
    (hzero : range.granularity.isZero = false)
    (hsteps : ∀ s n, pending s n → ∃ v : Int64, n = .long v ∧ 0 ≤ v.toInt) :
    (machine range d unique).Spends (Sound inv) (Pending range pending) where
  toKeeps := machine_keeps hm.toKeeps hnew
  spent := by
    intro g date hg h
    rcases generate_cases range d unique g with ⟨hnone, -⟩ | ⟨steps, hg_steps, hstate, hdate⟩
    · exact absurd h (hnone date)
    · obtain ⟨n, hn, hat⟩ := hdate date h
      obtain ⟨hpending, hgone⟩ := hm.spent steps n (hg steps hg_steps) hn
      refine ⟨⟨steps, hg_steps, n, hpending, hat⟩, ?_⟩
      rw [hstate]
      -- the same date again would be at the same number of steps
      rintro ⟨steps', hsteps', n', hpending', hat'⟩
      obtain rfl := Option.some.inj hsteps'
      obtain ⟨v, rfl, hv⟩ := hsteps _ _ hpending
      obtain ⟨w, rfl, hw⟩ := hsteps _ _ hpending'
      obtain rfl := dateAt_inj hzero hv hw hat hat'
      exact hgone hpending'
  generate_pending := by
    intro g date hg h
    rcases generate_cases range d unique g with ⟨-, hsame⟩ | ⟨steps, hg_steps, hstate, -⟩
    · rwa [hsame] at h
    · rw [hstate] at h
      obtain ⟨steps', hsteps', n, hpending, hat⟩ := h
      obtain rfl := Option.some.inj hsteps'
      exact ⟨steps, hg_steps, n, hm.generate_pending steps n (hg steps hg_steps) hpending, hat⟩
  close_pending := by
    intro g date hg h
    obtain ⟨steps, hclosed, n, hpending, hat⟩ := h
    obtain ⟨steps', hsteps', rfl⟩ := Option.map_eq_some_iff.mp hclosed
    exact ⟨steps', hsteps', n, hm.close_pending steps' n (hg steps' hsteps') hpending, hat⟩

end Days

/-! ## Date-times without repetitions -/

namespace Instants

variable {range : InstantRange} {d : Distribution ν} {t : Distribution τ} {unique : Bool}

/-- A time of day is joined to the date that is given. -/
theorem date_of_join {date : Date} {offset : Number} {v : DateTime}
    (h : join date offset = .ok (some v)) : v.date = date := by
  unfold join at h
  dsimp only at h
  split at h
  · obtain rfl := Option.some.inj (Except.ok.inj h)
    rfl
  · cases h

/-- The days are initialized at most once, and not replaced. -/
theorem init_cases (range : InstantRange) (d : Distribution ν) (t : Distribution τ) (unique : Bool)
    (context : Context) (g : Instants ν τ) (streams : Streams) :
    (init range d t unique context g streams).2.1.days = g.days ∨
      (init range d t unique context g streams).2.1.days =
        ((Days.machine range.days d unique).init context g.days streams).2.1 := by
  unfold init
  split
  · exact Or.inl rfl
  · split
    · exact Or.inl rfl
    · split
      · exact Or.inl rfl
      · split
        · rename_i hdays
          exact Or.inr (by rw [hdays])
        · rename_i hdays
          split
          · exact Or.inr (by rw [hdays])
          · exact Or.inr (by rw [hdays])

theorem reset_cases (range : InstantRange) (d : Distribution ν) (t : Distribution τ)
    (unique : Bool) (g : Instants ν τ) (streams : Streams) :
    (∃ context streams', ((machine range d t unique).reset g streams).2.1 =
        (init range d t unique context g streams').2.1) ∨
      ((machine range d t unique).reset g streams).2.1.days = g.days ∨
      ((machine range d t unique).reset g streams).2.1.days =
        ((Days.machine range.days d unique).reset g.days streams).2.1 := by
  obtain ⟨days, times, phase⟩ := g
  cases phase with
  | created => exact Or.inl ⟨streams.defaultContext.1, streams.defaultContext.2, rfl⟩
  | closed => exact Or.inr (Or.inl rfl)
  | running =>
    refine Or.inr (Or.inr ?_)
    rcases h : (Days.machine range.days d unique).reset days streams with
      ⟨fault | _, days', streams'⟩
    · simp [machine, h]
    · cases times with
      | none => simp [machine, h]
      | some times => simp [machine, h]

/-- A date-time that is handed out is the next day with some time. -/
theorem generate_cases (range : InstantRange) (d : Distribution ν) (t : Distribution τ)
    (unique : Bool) (g : Instants ν τ) :
    ((∀ v, ((machine range d t unique).generate g).1 ≠ .ok (some v)) ∧
        ((machine range d t unique).generate g).2 = g) ∨
      ((machine range d t unique).generate g).2.days =
          ((Days.machine range.days d unique).generate g.days).2 ∧
        ∀ v, ((machine range d t unique).generate g).1 = .ok (some v) →
          ((Days.machine range.days d unique).generate g.days).1 = .ok (some v.date) := by
  obtain ⟨days, times, phase⟩ := g
  cases phase with
  | created => exact Or.inl (by simp [machine, Phase.requireRunning])
  | closed => exact Or.inl (by simp [machine, Phase.requireRunning])
  | running =>
    refine Or.inr ?_
    rcases h : (Days.machine range.days d unique).generate days with ⟨fault | _ | date, days'⟩
    · simp [machine, emit, Phase.requireRunning, h]
    · simp [machine, emit, Phase.requireRunning, h]
    · cases times with
      | none => simp [machine, emit, Phase.requireRunning, h]
      | some times =>
        rcases htime : t.machine.generate times with ⟨fault | _ | offset, times'⟩
        · simp [machine, emit, Phase.requireRunning, h, htime]
        · simp [machine, emit, Phase.requireRunning, h, htime]
        · simp only [machine, emit, Phase.requireRunning, h, htime]
          refine ⟨trivial, fun v hv => ?_⟩
          rw [date_of_join hv]

variable {inv : Days ν → Prop} {pending : Days ν → Date → Prop}

theorem init_keeps (hd : (Days.machine range.days d unique).Keeps inv) (context : Context)
    {g : Instants ν τ} (streams : Streams) (hg : inv g.days) :
    inv (init range d t unique context g streams).2.1.days := by
  rcases init_cases range d t unique context g streams with hsame | hinit
  · rw [hsame]; exact hg
  · rw [hinit]; exact hd.init context g.days streams hg

/-- **Date-times are used up with their days**, whatever their times. -/
theorem machine_spends (hd : (Days.machine range.days d unique).Spends inv pending)
    (t : Distribution τ) :
    (machine range d t unique).Spends (fun g => inv g.days)
      (fun g v => pending g.days v.date) where
  init := fun context _ streams hg => init_keeps hd.toKeeps context streams hg
  generate := by
    intro g hg
    rcases generate_cases range d t unique g with ⟨-, hsame⟩ | ⟨hstate, -⟩
    · rw [hsame]; exact hg
    · rw [hstate]; exact hd.generate g.days hg
  reset := by
    intro g streams hg
    rcases reset_cases range d t unique g streams with ⟨context, streams', h⟩ | hsame | hreset
    · rw [h]; exact init_keeps hd.toKeeps context streams' hg
    · rw [hsame]; exact hg
    · rw [hreset]; exact hd.reset g.days streams hg
  close := fun g hg => hd.close g.days hg
  spent := by
    intro g v hg h
    rcases generate_cases range d t unique g with ⟨hnone, -⟩ | ⟨hstate, hday⟩
    · exact absurd h (hnone v)
    · rw [hstate]
      exact hd.spent g.days v.date hg (hday v h)
  generate_pending := by
    intro g v hg h
    rcases generate_cases range d t unique g with ⟨-, hsame⟩ | ⟨hstate, -⟩
    · rwa [hsame] at h
    · rw [hstate] at h
      exact hd.generate_pending g.days v.date hg h
  close_pending := fun g v hg h => hd.close_pending g.days v.date hg h

/-! ## Days and times together -/

section

variable {invDays : Days ν → Prop} {inv : τ → Prop}

theorem init_inv (hd : (Days.machine range.days d unique).Keeps invDays) (ht : t.machine.Keeps inv)
    (hnew : ∀ spec times, range.times.seconds t.openEnded = .ok spec →
      t.numbers spec unique = .ok times → inv times)
    (context : Context) {g : Instants ν τ} (streams : Streams)
    (hg : invDays g.days ∧ ∀ times ∈ g.times, inv times) :
    let g' := (init range d t unique context g streams).2.1
    invDays g'.days ∧ ∀ times ∈ g'.times, inv times := by
  unfold init
  split
  · exact hg
  · split
    · exact hg
    · rename_i spec hspec
      split
      · exact hg
      · rename_i times htimes
        have hdays := hd.init context g.days streams hg.1
        split
        · rename_i hinit
          rw [hinit] at hdays
          exact ⟨hdays, hg.2⟩
        · rename_i days streams' hinit
          have hleft := ht.init context times streams' (hnew spec times hspec htimes)
          rw [hinit] at hdays
          split
          · exact ⟨hdays, hg.2⟩
          · rename_i hbegun
            rw [hbegun] at hleft
            refine ⟨hdays, ?_⟩
            rintro _ ⟨⟩
            exact hleft

/-- An offset that is not a time of day is a failure. -/
theorem join_ne_none (date : Date) (offset : Number) : join date offset ≠ .ok none := by
  unfold join
  dsimp only
  split
  · nofun
  · nofun

/-- What is made of a day: it is a failure or no day, there are no times, or a time is
asked for. -/
inductive Timed (t : Distribution τ) (day : Except Fault (Option Date)) (times : Option τ) :
    Except Fault (Option DateTime) → Option τ → Prop where
  | failed (fault : Fault) : Timed t day times (.error fault) times
  | noDay : day = .ok none → Timed t day times (.ok none) times
  | noTimes (date : Date) : day = .ok (some date) → times = none →
    Timed t day times (.ok none) none
  | asked (date : Date) (s : τ) (answer : Except Fault (Option DateTime)) :
    day = .ok (some date) → times = some s →
    (answer = .ok none → (t.machine.generate s).1 = .ok none) →
    (∀ v, answer = .ok (some v) →
      ∃ n, (t.machine.generate s).1 = .ok (some n) ∧ join date n = .ok (some v)) →
    Timed t day times answer (some (t.machine.generate s).2)

/-- A date-time generator refuses, or takes a day and makes of it what it can. -/
theorem generate_timed (range : InstantRange) (d : Distribution ν) (t : Distribution τ)
    (unique : Bool) (g : Instants ν τ) :
    ((∃ fault, ((machine range d t unique).generate g).1 = .error fault) ∧
        ((machine range d t unique).generate g).2 = g) ∨
      g.phase = .running ∧ ∃ times,
        ((machine range d t unique).generate g).2 =
          ⟨((Days.machine range.days d unique).generate g.days).2, times, .running⟩ ∧
        Timed t ((Days.machine range.days d unique).generate g.days).1 g.times
          ((machine range d t unique).generate g).1 times := by
  obtain ⟨days, times, phase⟩ := g
  cases phase with
  | created | closed => exact Or.inl ⟨⟨_, rfl⟩, rfl⟩
  | running =>
    refine Or.inr ⟨rfl, ?_⟩
    simp only [machine, emit, Phase.requireRunning]
    rcases (Days.machine range.days d unique).generate days with ⟨fault | _ | date, days'⟩
    · exact ⟨times, rfl, .failed fault⟩
    · exact ⟨times, rfl, .noDay rfl⟩
    · cases times with
      | none => exact ⟨none, rfl, .noTimes date rfl rfl⟩
      | some s =>
        have hasked (answer : Except Fault (Option DateTime)) :
            (answer = .ok none → (t.machine.generate s).1 = .ok none) →
            (∀ v, answer = .ok (some v) →
              ∃ n, (t.machine.generate s).1 = .ok (some n) ∧ join date n = .ok (some v)) →
            Timed t (.ok (some date)) (some s) answer (some (t.machine.generate s).2) :=
          .asked date s answer rfl rfl
        dsimp only
        rcases hgenerate : t.machine.generate s with ⟨fault | _ | offset, s'⟩
        all_goals rw [hgenerate] at hasked
        · exact ⟨some s', rfl, hasked (.error fault) nofun fun _ => nofun⟩
        · exact ⟨some s', rfl, hasked (.ok none) (fun _ => rfl) fun _ => nofun⟩
        · exact ⟨some s', rfl, hasked (join date offset)
            (fun h => absurd h (join_ne_none date offset)) fun _ h => ⟨offset, rfl, h⟩⟩

theorem Timed.keeps {inv : τ → Prop} (ht : ∀ s, inv s → inv (t.machine.generate s).2)
    {day : Except Fault (Option Date)} {answer : Except Fault (Option DateTime)}
    {times times' : Option τ} (h : Timed t day times answer times')
    (htimes : ∀ s ∈ times, inv s) : ∀ s ∈ times', inv s := by
  cases h with
  | failed | noDay => exact htimes
  | noTimes => exact nofun
  | asked date s _ _ hs _ _ =>
    rintro _ ⟨⟩
    exact ht s (htimes s hs)

theorem machine_keeps_times (hd : (Days.machine range.days d unique).Keeps invDays)
    (ht : t.machine.Keeps inv)
    (hnew : ∀ spec times, range.times.seconds t.openEnded = .ok spec →
      t.numbers spec unique = .ok times → inv times) :
    (machine range d t unique).Keeps
      (fun g => invDays g.days ∧ ∀ times ∈ g.times, inv times) where
  init := fun context _ streams hg => init_inv hd ht hnew context streams hg
  generate := by
    rintro g ⟨hdays, htimes⟩
    rcases generate_timed range d t unique g with ⟨-, hsame⟩ | ⟨-, times, hstate, htimed⟩
    · rw [hsame]
      exact ⟨hdays, htimes⟩
    · rw [hstate]
      exact ⟨hd.generate g.days hdays, htimed.keeps ht.generate htimes⟩
  reset := by
    rintro ⟨days, times, phase⟩ streams ⟨hdays, htimes⟩
    cases phase with
    | created => exact init_inv hd ht hnew _ _ ⟨hdays, htimes⟩
    | closed => exact ⟨hdays, htimes⟩
    | running =>
      have hleft := hd.reset days streams hdays
      rcases hreset : (Days.machine range.days d unique).reset days streams with
        ⟨fault | _, days', streams'⟩
      all_goals rw [hreset] at hleft
      · simpa [machine, hreset] using ⟨hleft, htimes⟩
      · cases times with
        | none => simpa [machine, hreset] using hleft
        | some times =>
          have hleft' := ht.reset times streams' (htimes times rfl)
          simpa [machine, hreset] using ⟨hleft, hleft'⟩
  close := by
    rintro g ⟨hdays, htimes⟩
    refine ⟨hd.close g.days hdays, fun times h => ?_⟩
    obtain ⟨times', htimes', rfl⟩ := Option.map_eq_some_iff.mp h
    exact ht.close times' (htimes times' htimes')

end

end Instants
end SynthData
