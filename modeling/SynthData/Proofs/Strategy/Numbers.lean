import SynthData.Proofs.Generator.Expand
import SynthData.Proofs.Grid.Generator
import SynthData.Proofs.Weight.Points
import SynthData.Strategy.Basic

/-!
# Numbers of the built-in strategies

Every generator that a built-in strategy makes for a range of whole numbers
hands out points of the range and nothing else, in every run
(`numbers_isPoint`).  If repetitions are not allowed, no pass of a run has a
number twice (`numbers_nodup`).

Both are put together from the results on the kinds of generators: `NumberGen.On`
and `NumberGen.Once` are their invariants, and `numbers_makes` says that a
strategy makes generators that satisfy them.
-/
namespace SynthData

variable {min max granularity : Int64}

namespace NumberGen

/-- The invariant of a generator over a range: its numbers come from grid points
of the range. -/
def On (spec : Spec) : NumberGen → Prop
  | grid _ g => g.On spec
  | expand _ _ e =>
    Expand.Sound (Grid.On spec) (fun n => ∃ i, spec.HasPoint i ∧ n = spec.valueAt i)
      e.wrapped.source e.pool
  | weighted _ w => w.source.On spec
  | inverse g => g.On spec
  | listed _ => False

/-- The invariant of a generator over a range that hands out no number twice. -/
def Once (spec : Spec) : NumberGen → Prop
  | grid _ g => g.Once spec
  | expand true _ e => Expand.Fresh (Grid.Once spec) Grid.Pending e.wrapped e.pool
  | expand false .. | weighted .. | inverse _ | listed _ => False

/-- The invariant of a generator that uses its numbers up. -/
def Spread (spec : Spec) : NumberGen → Prop
  | grid _ g => g.Spread spec
  | expand true _ e => Expand.Fresh (Grid.Spread spec) Grid.Pending e.wrapped e.pool
  | expand false .. | weighted .. | inverse _ | listed _ => False

/-- The numbers that such a generator may still hand out in the present pass. -/
def Pending : NumberGen → Number → Prop
  | grid _ g => g.Pending
  | expand _ _ e => Expand.Waits Grid.Pending e.wrapped.source e.pool
  | weighted .. | inverse _ | listed _ => fun _ => False

/-! ## The kinds of generators -/

theorem embeds_grid (owner : String) : (gridMachine owner).Embeds machine (grid owner) :=
  ⟨fun _ _ _ => rfl, fun _ => rfl, fun _ _ => rfl, fun _ => rfl⟩

theorem embeds_expand (unique : Bool) (quota : Float) :
    (expandMachine unique quota).Embeds machine (expand unique quota) :=
  ⟨fun _ _ _ => rfl, fun _ => rfl, fun _ _ => rfl, fun _ => rfl⟩

theorem embeds_weighted (owner : String) :
    (weightedMachine owner).Embeds machine (weighted owner) :=
  ⟨fun _ _ _ => rfl, fun _ => rfl, fun _ _ => rfl, fun _ => rfl⟩

theorem embeds_inverse : Inverse.machine.Embeds machine inverse :=
  ⟨fun _ _ _ => rfl, fun _ => rfl, fun _ _ => rfl, fun _ => rfl⟩

theorem embeds_listed : Listed.machine.Embeds machine listed :=
  ⟨fun _ _ _ => rfl, fun _ => rfl, fun _ _ => rfl, fun _ => rfl⟩

/-- **Every number of a generator over a range of whole numbers comes from a
point.** -/
theorem machine_yields (hv : (Spec.long min max granularity).validate = .ok ()) :
    machine.Yields (On (.long min max granularity))
      (fun n => ∃ i, (Spec.long min max granularity).HasPoint i ∧
        n = (Spec.long min max granularity).valueAt i) :=
  .of_covered fun g hg => by
    cases g with
    | grid owner g => exact ⟨_, _, _, g, rfl, embeds_grid owner, Grid.machine_yields hv⟩
    | expand unique quota e =>
      exact ⟨_, _, _, e, rfl, embeds_expand unique quota,
        Expand.machine_yields (Grid.machine_yields hv) unique quota⟩
    | weighted owner w =>
      refine ⟨_, _, _, w, rfl, embeds_weighted owner, ?_⟩
      refine (Mapped.machine_yields (Weighted.machine_yields hv)).imp ?_
      rintro _ ⟨n, hn, rfl⟩
      exact hn
    | inverse g => exact ⟨_, _, _, g, rfl, embeds_inverse, Inverse.machine_yields hv⟩
    | listed l => exact hg.elim

/-- **No number is handed out twice in a pass**, if repetitions are not
allowed and different points are different numbers. -/
theorem spread_spends {spec : Spec} (hv : spec.validate = .ok ()) (hinj : spec.Injective) :
    machine.Spends (Spread spec) Pending :=
  .of_covered fun g hg => by
    cases g with
    | grid owner g => exact ⟨_, _, _, g, rfl, embeds_grid owner, Grid.spread_spends hv hinj⟩
    | expand unique quota e =>
      cases unique with
      | true => exact ⟨_, _, _, e, rfl, embeds_expand true quota,
          Expand.machine_spends (Grid.spread_spends hv hinj) Grid.machine_steady quota⟩
      | false => exact hg.elim
    | weighted owner w => exact hg.elim
    | inverse g => exact hg.elim
    | listed l => exact hg.elim

theorem spread_long (hv : (Spec.long min max granularity).validate = .ok ()) :
    Once (.long min max granularity) = Spread (.long min max granularity) := by
  funext g
  cases g with
  | grid owner g => exact congrFun (Grid.spread_long hv) g
  | expand unique quota e =>
    cases unique with
    | true =>
      show Expand.Fresh _ _ _ _ = Expand.Fresh _ _ _ _
      rw [Grid.spread_long hv]
    | false => rfl
  | _ => rfl

/-- Different points of whole numbers are different numbers. -/
theorem machine_spends (hv : (Spec.long min max granularity).validate = .ok ()) :
    machine.Spends (Once (.long min max granularity)) Pending := by
  rw [spread_long hv]
  exact spread_spends hv (Spec.injective_long hv)

end NumberGen

/-! ## Generators of strategies -/

namespace Strategy

theorem overGrid_eq_ok {owner : String} {spec : Spec} {walk : Walk} {gen : NumberGen} :
    overGrid owner spec walk = .ok gen ↔
      spec.validate = .ok () ∧ gen = .grid owner (.new spec walk) := by
  unfold overGrid
  cases hv : spec.validate with
  | error fault => simp
  | ok u => simp [eq_comm]

theorem startIndex_lt {spec : Spec} {initial : Option Float} {start : Nat}
    (h : startIndex spec initial = .ok start) : start < spec.sampleCount := by
  unfold startIndex at h
  split at h
  · obtain rfl := Except.ok.inj h
    exact spec.sampleCount_pos
  · split at h
    · rename_i i hi
      obtain rfl := Except.ok.inj h
      exact Spec.floorIndex?_lt hi
    · cases h

/-- Random steps that are accepted without repetitions lead upwards. -/
theorem least_pos_of_check {least most : Int64} {ordered : least ≤ most} {initial : Option Float}
    (h : (randomWalk least most ordered initial).check true = .ok ()) : 0 < least.toInt := by
  simp only [check, Bool.true_and] at h
  split at h
  · cases h
  · rename_i hleast
    simpa [Int64.le_iff_toInt_le] using hleast

/-- Equal steps that are accepted without repetitions lead somewhere. -/
theorem delta_ne_of_check {delta : Int64} {initial limit : Option Float}
    (h : (step delta initial limit).check true = .ok ()) : delta.toInt ≠ 0 := by
  simp only [check, Bool.true_and] at h
  split at h
  · cases h
  · rename_i hdelta
    intro hzero
    have : delta = 0 := Int64.toInt_inj.mp hzero
    exact hdelta (by rw [this]; rfl)

/-- Equal steps that lead somewhere are accepted, also without repetitions. -/
theorem check_step {delta : Int64} {unique : Bool} (h : unique = true → delta ≠ 0)
    (initial limit : Option Float) : (step delta initial limit).check unique = .ok () := by
  refine if_neg ?_
  rw [Bool.and_eq_true, beq_iff_eq]
  exact fun hstill => h hstill.1 hstill.2

/-- Over a valid range, there is a generator for them. -/
theorem numbers_step_new {spec : Spec} (hv : spec.validate = .ok ()) {delta : Int64}
    {unique : Bool} (h : unique = true → delta ≠ 0) :
    (step delta none none).numbers spec unique =
      .ok (.grid NumberGen.stepOwner (.new spec (.step (.new delta none none)))) := by
  simp only [numbers, hv, check_step h, startIndex]
  exact overGrid_eq_ok.mpr ⟨hv, rfl⟩

/-- The generators that a strategy makes for a range: grid points in the order of
a walk, random members of a pool of grid points, or draws, which are made only if
repetitions are allowed. -/
inductive Makes (spec : Spec) (unique : Bool) : NumberGen → Prop where
  | grid (owner : String) (walk : Walk) (fits : walk.Fits spec.sampleCount)
    (once : unique = true → walk.Once) : Makes spec unique (.grid owner (.new spec walk))
  | expand (quota : Float) (pool : Option Nat) :
    Makes spec unique
      (.expand unique quota (.new (.new spec (.step (.new 1 none none))) pool))
  | weighted (owner : String) (weight : WeightFunction) (repeating : unique = false) :
    Makes spec unique (.weighted owner (.new (.new spec weight)))
  | inverse (function : CumulativeFunction) (repeating : unique = false) :
    Makes spec unique (.inverse (.new spec function))

theorem makes_overGrid {owner : String} {spec : Spec} {unique : Bool} {walk : Walk}
    {gen : NumberGen} (h : overGrid owner spec walk = .ok gen) (fits : walk.Fits spec.sampleCount)
    (once : unique = true → walk.Once) : spec.validate = .ok () ∧ Makes spec unique gen := by
  obtain ⟨hv, rfl⟩ := overGrid_eq_ok.mp h
  exact ⟨hv, .grid owner walk fits once⟩

/-- Generators are made for valid ranges only. -/
theorem numbers_makes {s : Strategy} (hs : s.Ranged) {spec : Spec} {unique : Bool}
    {gen : NumberGen} (h : s.numbers spec unique = .ok gen) :
    spec.validate = .ok () ∧ Makes spec unique gen := by
  cases s with
  | random => exact makes_overGrid h trivial (fun hu => hu)
  | shuffle stride positive =>
    refine makes_overGrid h ?_ (fun _ => trivial)
    exact Nat.pos_of_ne_zero fun hzero => positive (UInt64.toNat_inj.mp hzero)
  -- strategies that repeat by nature make nothing when repetitions are not allowed
  | cumulated draws positive =>
    cases unique with
    | true => cases h
    | false => exact makes_overGrid h trivial nofun
  | randomWalk least most ordered initial =>
    simp only [numbers] at h
    split at h
    · cases h
    · cases h
    · cases h
    · rename_i start hv hcheck hstart
      refine makes_overGrid h ⟨startIndex_lt hstart, fun hu => ?_⟩ (fun hu => hu)
      obtain rfl : unique = true := hu
      exact least_pos_of_check hcheck
  | step delta initial limit =>
    simp only [numbers] at h
    split at h
    · cases h
    · cases h
    · cases h
    · rename_i start hv hcheck hstart
      refine makes_overGrid h trivial (fun hu => ?_)
      subst hu
      exact delta_ne_of_check hcheck
  | increment => exact makes_overGrid h trivial (fun hu => hu)
  | wedge => exact makes_overGrid h trivial (fun _ => trivial)
  | bitReverse => exact makes_overGrid h trivial (fun _ => trivial)
  | expand pool quota =>
    simp only [numbers] at h
    split at h
    · cases h
    · rename_i hv
      obtain rfl := Except.ok.inj h
      exact ⟨hv, .expand _ pool⟩
  | fibonacci => exact makes_overGrid h trivial (fun hu => hu)
  | padovan => exact makes_overGrid h trivial (fun hu => hu)
  | head size positive => exact makes_overGrid h trivial (fun _ => trivial)
  | weight function =>
    cases unique with
    | true => cases h
    | false =>
      simp only [numbers, check, Bool.false_eq_true, if_false] at h
      split at h
      · cases h
      · rename_i hv
        obtain rfl := Except.ok.inj h
        exact ⟨hv, .weighted _ function rfl⟩
  | inverse function =>
    cases unique with
    | true => cases h
    | false =>
      simp only [numbers, check, Bool.false_eq_true, if_false] at h
      split at h
      · cases h
      · rename_i hv
        obtain rfl := Except.ok.inj h
        exact ⟨hv, .inverse function rfl⟩
  | itemWeight weight => cases h
  | fixed list => exact absurd rfl (hs list)

theorem Makes.on {spec : Spec} {unique : Bool} {gen : NumberGen} (h : Makes spec unique gen) :
    gen.On spec := by
  cases h with
  | grid owner walk fits once => exact Grid.on_new fits
  | expand quota pool =>
    exact ⟨Grid.on_new trivial, fun n hn => absurd hn (Array.not_mem_empty n)⟩
  | weighted owner weight repeating => exact Weighted.on_new spec weight
  | inverse function repeating => exact rfl

theorem Makes.once {spec : Spec} {gen : NumberGen} (h : Makes spec true gen) : gen.Once spec := by
  cases h with
  | grid owner walk fits once => exact ⟨Grid.on_new fits, once rfl⟩
  | expand quota pool =>
    refine Expand.Fresh.empty ⟨Grid.on_new trivial, ?_⟩
    show (1 : Int64).toInt ≠ 0
    decide
  | weighted owner weight repeating => cases repeating
  | inverse function repeating => cases repeating

/-- **Strategies stay on the grid.**  Whatever is called, in which order and with
which streams, a generator over whole numbers hands out nothing but the numbers
`min + k * granularity` that lie between the bounds.  A generator of a range that
is not valid is never made. -/
theorem numbers_isPoint {s : Strategy} (hs : s.Ranged) {unique : Bool}
    {gen : NumberGen} (hgen : s.numbers (.long min max granularity) unique = .ok gen)
    (calls : List Machine.Call) (streams : Streams) :
    ∀ n ∈ (NumberGen.machine.run calls (.start gen streams)).pass,
      ∃ (v : Int64) (k : Nat), n = .long v ∧ min ≤ v ∧ v ≤ max ∧
        v.toInt = min.toInt + k * granularity.toInt := by
  intro n hn
  obtain ⟨hv, hmakes⟩ := numbers_makes hs hgen
  obtain ⟨i, hi, rfl⟩ := (NumberGen.machine_yields hv).pass hmakes.on streams calls n hn
  exact Spec.isPoint_valueAt (Spec.validate_long.mp hv).2 hi

/-- From both ends of all whole numbers, in steps of four: the greatest number
itself is not a point. -/
theorem numbers_isPoint_wedge :
    ∃ gen, wedge.numbers (.long Int64.minValue Int64.maxValue 4) false = .ok gen ∧
      (NumberGen.machine.run [.init ⟨{}, 0⟩, .generate, .generate]
        (.start gen (.start fun _ => .ofSeed 0))).pass =
          [.long 9223372036854775804, .long Int64.minValue] ∧
      ∀ n ∈ (NumberGen.machine.run [.init ⟨{}, 0⟩, .generate, .generate]
        (.start gen (.start fun _ => .ofSeed 0))).pass,
        ∃ (v : Int64) (k : Nat), n = .long v ∧ Int64.minValue ≤ v ∧ v ≤ Int64.maxValue ∧
          v.toInt = Int64.minValue.toInt + k * (4 : Int64).toInt := by
  have hgen : wedge.numbers (.long Int64.minValue Int64.maxValue 4) false = .ok _ := rfl
  exact ⟨_, hgen, rfl, numbers_isPoint (fun _ h => by cases h) hgen _ _⟩

/-- **No pass of a strategy without repetitions has a number twice.** -/
theorem numbers_nodup {s : Strategy} (hs : s.Ranged) {gen : NumberGen}
    (hgen : s.numbers (.long min max granularity) true = .ok gen)
    (calls : List Machine.Call) (streams : Streams) :
    (NumberGen.machine.run calls (.start gen streams)).pass.Nodup := by
  obtain ⟨hv, hmakes⟩ := numbers_makes hs hgen
  exact (NumberGen.machine_spends hv).pass_nodup hmakes.once streams calls

end Strategy
end SynthData
