import SynthData.Field.Basic
import SynthData.Proofs.Generator.Unique
import SynthData.Proofs.Strategy.Named
import SynthData.Proofs.Temporal.Days
import SynthData.Proofs.Value.Basic

/-!
# Fields without repetitions

A field whose values must not be repeated has a generator that repeats none in a
pass, of whichever kind the field is and by whichever strategy
(`producer_pairwise`).  Three arguments meet here:

* whole numbers: the walk uses its indices up, and different points are different
  numbers;
* dates and date-times: the steps are used up, and different numbers of steps lead
  to different days;
* values of a list: the filter remembers what it has passed on, so the strategy
  does not matter.
-/
namespace SynthData

/-- No pass of a run has a value twice. -/
def Producer.Unrepeating (p : Producer Value) : Prop :=
  ∀ calls streams, (p.machine.run calls (.start p.state streams)).pass.Nodup

theorem Value.ofNumber_injective : Function.Injective Value.ofNumber := by
  intro a b h
  cases a <;> cases b <;> cases h <;> rfl

section Strategies

variable {s : Strategy}

/-! ## Numbers -/

theorem numberProducer_unrepeating (hs : s.Ranged) {min max granularity : Int64} {gen : NumberGen}
    (hgen : s.numbers (.long min max granularity) true = .ok gen) :
    (numberProducer gen).Unrepeating := by
  intro calls streams
  obtain ⟨hv, hmakes⟩ := Strategy.numbers_makes hs hgen
  exact (Mapped.machine_spends (NumberGen.machine_spends hv) Value.ofNumber_injective).pass_nodup
    (s := .new gen) hmakes.once streams calls

/-! ## Days -/

/-- The days of a strategy without repetitions are used up. -/
theorem days_spends (hs : s.Ranged) {range : DateRange}
    (hzero : range.granularity.isZero = false) :
    ∃ inv pending, (Days.machine range s.distribution true).Spends inv pending ∧ inv .new := by
  cases hsteps : range.steps with
  | error fault =>
    -- numbers of steps are never made
    have hm := Machine.Spends.vacuous s.distribution.machine (fun _ (_ : Number) => False)
    have hnew : ∀ spec gen, range.steps = .ok spec →
        s.distribution.numbers spec true = .ok gen → False := by
      intro spec gen hspec
      rw [hsteps] at hspec
      cases hspec
    exact ⟨_, _, Days.machine_spends hm hnew hzero (fun _ _ => False.elim), Days.sound_new _⟩
  | ok spec =>
    obtain ⟨last, rfl, hv⟩ := DateRange.steps_eq_ok hsteps
    have hm := (NumberGen.machine_spends hv).and_good (NumberGen.machine_yields hv)
    refine ⟨_, _, Days.machine_spends (d := s.distribution) hm ?_ hzero ?_, Days.sound_new _⟩
    · intro spec gen hspec hgen
      rw [hsteps] at hspec
      obtain rfl := Except.ok.inj hspec
      obtain ⟨-, hmakes⟩ := Strategy.numbers_makes hs hgen
      exact ⟨hmakes.once, hmakes.on⟩
    · rintro gen n ⟨-, i, hi, rfl⟩
      obtain ⟨v, hvalue, hint⟩ := Spec.valueAt_long (by decide) hi
      refine ⟨v, hvalue, ?_⟩
      rw [hint]
      show 0 ≤ 0 + (i : Int) * 1
      omega

theorem dateProducer_unrepeating (hs : s.Ranged) {range : DateRange}
    (hzero : range.granularity.isZero = false) :
    (dateProducer range s true).Unrepeating := by
  intro calls streams
  obtain ⟨inv, pending, hspends, hnew⟩ := days_spends hs hzero
  exact (Mapped.machine_spends hspends fun _ _ => Value.date.inj).pass_nodup
    (s := .new .new) hnew streams calls

theorem dateTimeProducer_unrepeating (hs : s.Ranged) (times : Strategy) {range : InstantRange}
    (hzero : range.days.granularity.isZero = false) :
    (dateTimeProducer range s times true).Unrepeating := by
  intro calls streams
  obtain ⟨inv, pending, hspends, hnew⟩ := days_spends hs hzero
  have hinstants := Instants.machine_spends (τ := NumberGen) hspends times.distribution
  exact (Mapped.machine_spends hinstants fun _ _ => Value.dateTime.inj).pass_nodup
    (s := .new .new) hnew streams calls

end Strategies

/-! ## Fields -/

namespace Field

variable {s : Strategy} {p : Producer Value}

theorem ofRange_unrepeating (hs : s.Ranged) {min max granularity : Int64}
    (h : ofRange s (.long min max granularity) true = .ok p) : p.Unrepeating := by
  unfold ofRange at h
  split at h
  · cases h
  · rename_i gen hgen
    obtain rfl := Except.ok.inj h
    exact numberProducer_unrepeating hs hgen

theorem ofDates_unrepeating (hs : s.Ranged) {range : DateRange}
    (h : ofDates s range true = .ok p) : p.Unrepeating := by
  unfold ofDates at h
  split at h
  · cases h
  · rename_i spec hsteps
    obtain rfl := Except.ok.inj h
    exact dateProducer_unrepeating hs (DateRange.isZero_of_steps hsteps)

theorem ofDateTimes_unrepeating (hs : s.Ranged) {times : Strategy} {range : InstantRange}
    (h : ofDateTimes s times range true = .ok p) : p.Unrepeating := by
  unfold ofDateTimes at h
  split at h
  · cases h
  · split at h
    · cases h
    · split at h
      · cases h
      · rename_i last hlast
        obtain rfl := Except.ok.inj h
        exact dateTimeProducer_unrepeating hs times (DateRange.isZero_of_lastStep hlast)

/-- Listed values are filtered, whatever the strategy makes of the list. -/
theorem ofValues_unrepeating {name : String} {list : List Value}
    (h : ofValues name s list true = .ok p) : p.Unrepeating := by
  unfold ofValues at h
  split at h
  · cases h
  · split at h
    · cases h
    · rename_i source hsource
      obtain rfl := Except.ok.inj h
      exact fun calls streams =>
        (Unique.machine_spends source.machine false).pass_nodup trivial streams calls

/-- **A field without repetitions repeats no value in a pass.**  Fields of doubles
are left out, since different indices may have the same double. -/
theorem producer_pairwise {f : Field} {p : Producer Value}
    (hp : f.producer Registry.builtins = .ok p) (hunique : f.unique = true)
    (hkind : ∀ min max granularity, f.kind ≠ .double min max granularity)
    (calls : List Machine.Call) (streams : Streams) :
    (p.machine.run calls (.start p.state streams)).pass.Pairwise fun a b => a.same b = false := by
  refine Value.pairwise_not_same ?_
  suffices h : p.Unrepeating from h calls streams
  unfold producer at hp
  rw [hunique] at hp
  split at hp
  · cases hp
  · rename_i s hs
    have hranged := Registry.builtins_ranged.strategy hs
    split at hp
    · exact ofRange_unrepeating hranged hp
    · rename_i min max granularity hdouble
      exact absurd hdouble (hkind min max granularity)
    · exact ofDates_unrepeating hranged hp
    · split at hp
      · exact ofDateTimes_unrepeating hranged hp
      · split at hp
        · cases hp
        · exact ofDateTimes_unrepeating hranged hp
    · exact ofValues_unrepeating hp

/-- The whole numbers from one to three, in strides of two. -/
def strided : Field := ⟨"n", .long 1 3 1, some "shuffle", true⟩

theorem producer_strided : strided.producer Registry.builtins =
    .ok (numberProducer (.grid "ShuffleSequence" (.new (.long 1 3 1) (.shuffle (.new 2))))) := by
  have hname : strided.strategyName = "shuffle" := rfl
  unfold producer
  rw [hname, Registry.builtins_shuffle]
  rfl

theorem producer_pairwise_strided :
    ∃ p, strided.producer Registry.builtins = .ok p ∧ strided.unique = true ∧
      (∀ min max granularity, strided.kind ≠ .double min max granularity) ∧
      (p.machine.run [.init ⟨{}, 0⟩, .generate, .generate, .generate, .generate]
        (.start p.state (.start fun _ => .ofSeed 0))).pass = [.long 2, .long 3, .long 1] ∧
      (p.machine.run [.init ⟨{}, 0⟩, .generate, .generate, .generate, .generate]
        (.start p.state (.start fun _ => .ofSeed 0))).pass.Pairwise
          fun a b => a.same b = false :=
  ⟨_, producer_strided, rfl, fun _ _ _ => nofun, rfl,
    producer_pairwise producer_strided rfl (fun _ _ _ => nofun) _ _⟩

end Field
end SynthData
