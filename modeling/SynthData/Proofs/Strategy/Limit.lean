import SynthData.Proofs.Strategy.Order
import SynthData.Proofs.Walk.Limit

/-!
# The limit of equal steps

Downwards, equal steps never pass their limit.  Upwards, they pass it if they come to a point above
the limit whose index the calculated quotient reaches (`numbers_keep_limit`).  A little is added to
the quotient, so this happens where a point lies just above the limit (`numbers_pass_limit`).
-/
namespace SynthData.Strategy

open Binary64 (Reads)
open Walk (Step)

variable {spec : Spec} {delta : Int64} {initial limit : Option Float} {unique : Bool}
  {gen : NumberGen} {start k i : Nat}

/-! ## The indices that are found -/

/-- Generators of equal steps are made for valid ranges, and for initial values in the range. -/
theorem numbers_step (h : (step delta initial limit).numbers spec unique = .ok gen) :
    spec.validate = .ok () ∧ (∃ start, startIndex spec initial = .ok start) ∧
      gen = .grid NumberGen.stepOwner (.new spec (.step (.new delta initial limit))) := by
  simp only [numbers] at h
  split at h
  · cases h
  · cases h
  · cases h
  · next start hv _ hstart => exact ⟨hv, ⟨start, hstart⟩, (overGrid_eq_ok.mp h).2⟩

/-- Equal steps at the beginning of a pass. -/
def begunSteps (spec : Spec) (delta : Int64) (initial limit : Option Float) : Step :=
  (Step.new delta initial limit).rewind spec

/-- What can be handed out are the points at the indices that are found. -/
theorem mem_pass_step_iff (hv : spec.validate = .ok ()) (streams : Streams) {n : Number} :
    (∃ calls, n ∈ (NumberGen.machine.run calls (.start
        (.grid NumberGen.stepOwner (.new spec (.step (.new delta initial limit)))) streams)).pass) ↔
      ∃ k i, (begunSteps spec delta initial limit).index k = some i ∧ n = spec.valueAt i :=
  NumberGen.mem_pass_iff NumberGen.stepOwner hv
    (show Walk.Drawless (.step (.new delta initial limit)) from trivial)
    (Step.goes (begunSteps spec delta initial limit)) streams

/-- The limit allows what is found, and all of it is on the grid. -/
theorem allowed_of_found (h : (begunSteps spec delta initial limit).index k = some i) :
    i < spec.sampleCount ∧ ((Step.bounds spec delta limit).1 ≤ (i : Int) ∧
      (i : Int) ≤ (Step.bounds spec delta limit).2) ∧
      (i : Int) = (begunSteps spec delta initial limit).place k := by
  obtain ⟨hlow, hhigh⟩ := Step.bounds_visits spec delta limit
  obtain ⟨hallows, hplace⟩ := Step.allows_of_index hlow h
  have hhigh' : (i : Int) ≤ (Step.bounds spec delta limit).2 := hallows.2
  exact ⟨by omega, hallows, hplace⟩

/-! ## Upwards -/

/-- The indices that equal steps upwards come to, if no limit ends them. -/
def Reached (spec : Spec) (delta : Int64) (initial : Option Float) (i : Nat) : Prop :=
  i < spec.sampleCount ∧ ∃ start steps : Nat, startIndex spec initial = .ok start ∧
    (i : Int) = start + steps * delta.toInt

section Upwards

variable (hdelta : 0 ≤ delta)

include hdelta

theorem bounds_fst_of_upwards : (Step.bounds spec delta limit).1 = 0 := by
  unfold Step.bounds
  split
  · rfl
  · rw [if_pos hdelta]
    split <;> rfl

/-- Steps upwards begin at the index that has been found for the initial value. -/
theorem current_begunSteps (hstart : startIndex spec initial = .ok start) :
    (begunSteps spec delta initial limit).current = start := by
  unfold startIndex at hstart
  split at hstart
  · obtain rfl := Except.ok.inj hstart
    show (if delta < 0 then (Step.bounds spec delta limit).2 else (Step.bounds spec delta limit).1)
      = 0
    rw [if_neg (Int64.not_lt.mpr hdelta), bounds_fst_of_upwards hdelta]
  · split at hstart
    · next hindex =>
      obtain rfl := Except.ok.inj hstart
      simp only [begunSteps, Step.rewind, Step.new, Option.bind_some, hindex]
      rfl
    · cases hstart

/-- **Upwards, what is found are the indices that the steps come to and the limit allows.** -/
theorem found_iff (hstart : startIndex spec initial = .ok start) :
    (∃ k, (begunSteps spec delta initial limit).index k = some i) ↔
      Reached spec delta initial i ∧ (Step.bounds spec delta limit).1 ≤ (i : Int) ∧
        (i : Int) ≤ (Step.bounds spec delta limit).2 := by
  have hcurrent : (begunSteps spec delta initial limit).current = start :=
    current_begunSteps hdelta hstart
  constructor
  · rintro ⟨k, hk⟩
    obtain ⟨hi, hallowed, hplace⟩ := allowed_of_found hk
    rw [Step.place, hcurrent] at hplace
    exact ⟨⟨hi, start, k, hstart, hplace⟩, hallowed⟩
  · rintro ⟨⟨-, start', k, hstart', hplace⟩, hallowed⟩
    obtain rfl := Except.ok.inj (hstart.symm.trans hstart')
    rw [← hcurrent] at hplace
    have hfirst : (Step.bounds spec delta limit).1 ≤
        (begunSteps spec delta initial limit).current := by
      rw [bounds_fst_of_upwards hdelta, hcurrent]
      exact Int.natCast_nonneg start
    have hrise : 0 ≤ delta.toInt := Int64.le_iff_toInt_le.mp hdelta
    exact ⟨k, Step.index_of_upwards hfirst hrise hplace hallowed⟩

end Upwards

/-! ## Whole numbers -/

section Long

variable {min max granularity : Int64} {limit : Float} {l : ℚ}

/-- **Equal steps and their limit.**  Over a valid range of whole numbers of 53 bits and with a
finite limit, steps downwards hand out no number below the limit, whatever is called.  Steps upwards
hand out no number above it if and only if the limit is below the whole range, or its calculated
quotient is less than the index of every point above it that they come to. -/
theorem numbers_keep_limit (hmin : |min.toInt| ≤ 2 ^ 53) (hmax : |max.toInt| ≤ 2 ^ 53)
    (hlimit : Reads limit l)
    (hgen : (step delta initial (some limit)).numbers (.long min max granularity) unique = .ok gen)
    (streams : Streams) :
    (delta < 0 → ∀ n, (∃ calls, n ∈ (NumberGen.machine.run calls (.start gen streams)).pass) →
      ∃ v : Int64, n = .long v ∧ l ≤ v.toInt) ∧
    (0 ≤ delta →
      ((∀ n, (∃ calls, n ∈ (NumberGen.machine.run calls (.start gen streams)).pass) →
          ∃ v : Int64, n = .long v ∧ v.toInt ≤ l) ↔
        ((min.toInt : ℚ) ≤ l → ∀ i, Reached (.long min max granularity) delta initial i →
          l < min.toInt + i * granularity.toInt →
            Spec.quotient min.toInt granularity.toInt l < i))) := by
  obtain ⟨hv, ⟨start, hstart⟩, rfl⟩ := numbers_step hgen
  have hvalue {i : Nat} (hi : i < (Spec.long min max granularity).sampleCount) :
      ∃ v : Int64, (Spec.long min max granularity).valueAt i = .long v ∧
        (v.toInt : ℚ) = min.toInt + i * granularity.toInt := by
    obtain ⟨v, hvalue, hint⟩ := Spec.valueAt_long (Spec.validate_long.mp hv).2
      (Spec.hasPoint_of_lt hv hi)
    exact ⟨v, hvalue, by exact_mod_cast hint⟩
  refine ⟨fun hdelta n hn => ?down, fun hdelta => ⟨fun hkeeps hle i hreached habove => ?passed,
    fun hclear n hn => ?up⟩⟩
  case down =>
    obtain ⟨k, i, hfound, rfl⟩ := (mem_pass_step_iff hv streams).mp hn
    obtain ⟨hi, hallowed, -⟩ := allowed_of_found hfound
    obtain ⟨v, hv', hint⟩ := hvalue hi
    exact ⟨v, hv', hint ▸ Step.le_point_of_allowed hv hmin hmax hlimit
      (Int64.not_le.mpr hdelta) hallowed⟩
  case passed =>
    -- an index that is not above the quotient would be found
    by_contra hnot
    have hallowed := (Step.allowed_iff_le_quotient hv hmin hmax hlimit hdelta hreached.1 habove).mpr
      ⟨hle, not_lt.mp hnot⟩
    obtain ⟨k, hk⟩ := (found_iff hdelta hstart).mpr ⟨hreached, hallowed⟩
    obtain ⟨v, hv', hint⟩ := hvalue hreached.1
    obtain ⟨v', hn, hkept⟩ := hkeeps _ ((mem_pass_step_iff hv streams).mpr ⟨k, i, hk, rfl⟩)
    obtain rfl := Number.long.inj (hv'.symm.trans hn)
    linarith
  case up =>
    obtain ⟨k, i, hfound, rfl⟩ := (mem_pass_step_iff hv streams).mp hn
    obtain ⟨hreached, hallowed⟩ := (found_iff hdelta hstart).mp ⟨k, hfound⟩
    obtain ⟨v, hv', hint⟩ := hvalue hreached.1
    refine ⟨v, hv', ?_⟩
    by_contra hnot
    rw [hint, not_le] at hnot
    obtain ⟨hle, hreaches⟩ :=
      (Step.allowed_iff_le_quotient hv hmin hmax hlimit hdelta hreached.1 hnot).mp hallowed
    exact absurd (hclear hle i hreached hnot) (not_lt.mpr hreaches)

theorem reads_fiveAndHalf : Reads 5.5 (11 / 2) :=
  Binary64.reads_of_unpack (m := 11 * 2 ^ 49) (e := -50) rfl (by norm_num)

theorem quotient_fiveAndHalf : Spec.quotient 0 1 (11 / 2) < 6 := by
  have hhalf : Binary64.HasBits (11 / 2) := ⟨11, -1, by norm_num, by norm_num, by norm_num⟩
  have hbound : Binary64.HasBits (23 / 4) := ⟨23, -2, by norm_num, by norm_num, by norm_num⟩
  have hone : Binary64.rounded ((1 : ℤ) : ℚ) = (1 : ℤ) := Binary64.rounded_intCast (by norm_num)
  have htolerance := Spec.tolerance_le
  have hle : Binary64.rounded (11 / 2 + Spec.tolerance) ≤ Binary64.rounded (23 / 4) :=
    Binary64.rounded_mono (by linarith)
  rw [hbound.rounded] at hle
  rw [Spec.quotient, hone, Int.cast_zero, Int.cast_one, sub_zero, div_one, hhalf.rounded,
    hhalf.rounded]
  linarith

/-- A limit half way between two points is kept upwards. -/
theorem numbers_keep_limit_between :
    ∃ gen, (step 1 none (some 5.5)).numbers (.long 0 10 1) false = .ok gen ∧ Reads 5.5 (11 / 2) ∧
      ∀ n, (∃ calls, n ∈ (NumberGen.machine.run calls
        (.start gen (.start fun _ => .ofSeed 0))).pass) → ∃ v : Int64, n = .long v ∧
          (v.toInt : ℚ) ≤ 11 / 2 := by
  have hgen : (step 1 none (some 5.5)).numbers (.long 0 10 1) false = .ok _ := rfl
  refine ⟨_, hgen, reads_fiveAndHalf, ((numbers_keep_limit (by decide) (by decide)
    reads_fiveAndHalf hgen (.start fun _ => .ofSeed 0)).2 (by decide)).mpr ?_⟩
  intro _ i _ habove
  have hzero : (0 : Int64).toInt = 0 := rfl
  have hone : (1 : Int64).toInt = 1 := rfl
  rw [hzero, hone, Int.cast_zero, Int.cast_one, zero_add, mul_one] at habove
  rw [hzero, hone]
  have hi : 6 ≤ i := by
    by_contra hnot
    have hle : (i : ℚ) ≤ 5 := by exact_mod_cast Nat.le_of_lt_succ (not_le.mp hnot)
    linarith
  exact quotient_fiveAndHalf.trans_le (by exact_mod_cast hi)

/-- A point that lies a ten-billionth above the limit is handed out. -/
theorem numbers_pass_limit :
    ∃ gen, (step 1 (some 0) (some 5.9999999999)).numbers (.long 0 10 1) false = .ok gen ∧
      (NumberGen.machine.run (.init ⟨{}, 0⟩ :: List.replicate 7 .generate)
        (.start gen (.start fun _ => .ofSeed 0))).pass =
          [.long 6, .long 5, .long 4, .long 3, .long 2, .long 1, .long 0] ∧
      5.9999999999 < (Number.long 6).toFloat :=
  ⟨_, rfl, rfl, by decide⟩

end Long

end SynthData.Strategy
