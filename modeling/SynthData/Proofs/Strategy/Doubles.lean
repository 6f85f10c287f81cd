import SynthData.Proofs.Grid.Spacing
import SynthData.Proofs.Strategy.Numbers

/-!
# Numbers of ranges of doubles

A strategy without repetitions uses the indices of the points up.  Over whole numbers that is enough
for numbers without repetition; over doubles the points must be kept apart, which depends on how the
bounds and the granularity are rounded (`points_increase_iff`).

Recurrences need more: they look for a point near a member, the nearer the smaller the granularity,
and where that is large they may find the same point for several members (`numbers_tellsApart`).
-/
namespace SynthData

open Binary64 (Reads rounded limit)

namespace NumberGen

/-- No pass of a run has two numbers that are equal. -/
def Unrepeated (gen : NumberGen) : Prop :=
  ∀ calls streams, (machine.run calls (.start gen streams)).pass.Pairwise
    fun n m => n.equals m = false

/-- The generators whose numbers come from the grid itself. -/
def OnGrid (spec : Spec) : NumberGen → Prop
  | grid _ g => g.On spec
  | expand _ _ e =>
    Expand.Sound (Grid.On spec) (fun n => ∃ i, spec.HasPoint i ∧ n = spec.valueAt i)
      e.wrapped.source e.pool
  | weighted .. | inverse _ | listed _ => False

theorem onGrid_yields {spec : Spec} (hv : spec.validate = .ok ()) :
    machine.Yields (OnGrid spec) fun n => ∃ i, spec.HasPoint i ∧ n = spec.valueAt i :=
  .of_covered fun g hg => by
    cases g with
    | grid owner g => exact ⟨_, _, _, g, rfl, embeds_grid owner, Grid.machine_yields hv⟩
    | expand unique quota e =>
      exact ⟨_, _, _, e, rfl, embeds_expand unique quota,
        Expand.machine_yields (Grid.machine_yields hv) unique quota⟩
    | weighted owner w => exact hg.elim
    | inverse g => exact hg.elim
    | listed l => exact hg.elim

end NumberGen

namespace Strategy

variable {s : Strategy} {spec : Spec} {gen : NumberGen}

/-! ## Generators without repetitions -/

theorem Makes.onGrid (h : Makes spec true gen) : gen.OnGrid spec := by
  cases h with
  | grid owner walk fits once => exact Grid.on_new fits
  | expand quota pool =>
    exact ⟨Grid.on_new trivial, fun n hn => absurd hn (Array.not_mem_empty n)⟩
  | weighted owner weight repeating => cases repeating
  | inverse function repeating => cases repeating

theorem Makes.spread (h : Makes spec true gen)
    (hwalk : ∀ owner walk, gen = .grid owner (.new spec walk) → walk.TellsApart spec) :
    gen.Spread spec := by
  cases h with
  | grid owner walk fits once => exact ⟨⟨Grid.on_new fits, once rfl⟩, hwalk owner walk rfl⟩
  | expand quota pool =>
    refine Expand.Fresh.empty ⟨⟨Grid.on_new trivial, ?_⟩, trivial⟩
    show (1 : Int64).toInt ≠ 0
    decide
  | weighted owner weight repeating => cases repeating
  | inverse function repeating => cases repeating

/-- Only recurrences may confuse indices. -/
theorem numbers_tellsApart {unique : Bool} {owner : String} {walk : Walk}
    (hgen : s.numbers spec unique = .ok (.grid owner (.new spec walk)))
    (hrecurrence : s = fibonacci ∨ s = padovan → Walk.Recurrence.TellsApart spec) :
    walk.TellsApart spec := by
  have hgrid {owner' : String} {walk' : Walk}
      (h : overGrid owner' spec walk' = .ok (.grid owner (.new spec walk)))
      (hwalk : walk'.TellsApart spec) : walk.TellsApart spec := by
    obtain ⟨-, heq⟩ := overGrid_eq_ok.mp h
    cases heq
    exact hwalk
  cases s with
  | fibonacci => exact Walk.tellsApart_of (hrecurrence (Or.inl rfl)) walk
  | padovan => exact Walk.tellsApart_of (hrecurrence (Or.inr rfl)) walk
  | random => exact hgrid hgen trivial
  | shuffle stride positive => exact hgrid hgen trivial
  | increment => exact hgrid hgen trivial
  | wedge => exact hgrid hgen trivial
  | bitReverse => exact hgrid hgen trivial
  | head size positive => exact hgrid hgen trivial
  | cumulated draws positive =>
    simp only [numbers] at hgen
    split at hgen
    · cases hgen
    · exact hgrid hgen trivial
  | randomWalk least most ordered initial =>
    simp only [numbers] at hgen
    split at hgen
    · cases hgen
    · cases hgen
    · cases hgen
    · exact hgrid hgen trivial
  | step delta initial limit =>
    simp only [numbers] at hgen
    split at hgen
    · cases hgen
    · cases hgen
    · cases hgen
    · exact hgrid hgen trivial
  | expand pool quota =>
    simp only [numbers] at hgen
    split at hgen <;> cases hgen
  | weight function =>
    simp only [numbers] at hgen
    split at hgen
    · cases hgen
    · split at hgen <;> cases hgen
  | inverse function =>
    simp only [numbers] at hgen
    split at hgen
    · cases hgen
    · split at hgen <;> cases hgen
  | itemWeight weight => cases hgen
  | fixed list => cases hgen

-- In steps of ten billions, the first Fibonacci numbers are all found at the least point.
example :
    let walk := Walk.Recurrence.new .fibonacci true (.double 0 1000000000000 10000000000)
    walk.next.1 = some 0 ∧ walk.next.2.next.1 = some 0 := by
  decide +kernel

/-! ## Ranges of doubles -/

section Doubles

variable {min max granularity : Float} {x y d : ℚ}

/-- **Points that are apart are not repeated**, neither by a walk that uses its indices up nor by a
pool that such a walk fills. -/
theorem unrepeated_of_apart (hs : s.Ranged) (hx : Reads min x) (hy : Reads max y)
    (hd : Reads granularity d) (hpos : 0 < d)
    (hapart : Spec.Apart x y d (Spec.double min max granularity).sampleCount)
    (hrecurrence : s = fibonacci ∨ s = padovan →
      Walk.Recurrence.TellsApart (.double min max granularity))
    (hgen : s.numbers (.double min max granularity) true = .ok gen) : gen.Unrepeated := by
  intro calls streams
  obtain ⟨hv, hmakes⟩ := numbers_makes hs hgen
  have hspread := hmakes.spread fun owner walk heq => numbers_tellsApart (heq ▸ hgen) hrecurrence
  have hnodup := (NumberGen.spread_spends hv (hapart.injective hx hy hd hpos)).pass_nodup hspread
    streams calls
  have hpoints := (NumberGen.onGrid_yields hv).pass hmakes.onGrid streams calls
  refine hnodup.imp_of_mem ?_
  intro n m hn hm hne
  obtain ⟨i, hi, rfl⟩ := hpoints n hn
  obtain ⟨j, hj, rfl⟩ := hpoints m hm
  rw [Bool.eq_false_iff, Ne, Spec.equals_iff hx hy hd hpos hi hj]
  intro heq
  exact hne (congrArg _ (hapart.inj hpos hi hj heq))

/-- **The points of doubles increase if and only if every point but the last one is less than the
next one as they are calculated.**  In any case a larger index has no lesser point.  Points that
increase are what numbers without repetition depend on: indices that are not repeated have points
that are not repeated, and so do strategies without repetitions, if recurrences tell their members
apart.  The points increase if the bounds are not too far apart and the granularity is at least
sixteen times the spacing of the doubles at the larger bound, and they do not if there are too many
of them. -/
theorem points_increase_iff {spec : Spec} (hspec : spec = .double min max granularity)
    (hv : spec.validate = .ok ()) :
    ∃ x y d, (Reads min x ∧ Reads max y ∧ Reads granularity d) ∧
      (∀ i, i < spec.sampleCount → Reads (spec.valueAt i).toFloat (Spec.point x y d i)) ∧
      Monotone (Spec.point x y d) ∧
      (spec.Increasing ↔ Spec.Apart x y d spec.sampleCount) ∧
      (spec.Unrepeating ↔ Spec.Apart x y d spec.sampleCount) ∧
      (Spec.Apart x y d spec.sampleCount → ∀ s gen, s.Ranged →
        (s = fibonacci ∨ s = padovan → Walk.Recurrence.TellsApart spec) →
        s.numbers spec true = .ok gen → gen.Unrepeated) ∧
      (rounded (y - x) < limit → 16 * Spec.spacing x y ≤ d →
        Spec.Apart x y d spec.sampleCount) ∧
      (Spec.Apart x y d spec.sampleCount → spec.sampleCount ≤ 2 ^ 53 + 1) := by
  subst hspec
  obtain ⟨x, y, d, hx, hy, hd⟩ := Spec.exists_reads hv
  obtain ⟨horder, hpos⟩ := (Spec.validate_double hx hy hd).mp hv
  refine ⟨x, y, d, ⟨hx, hy, hd⟩, ?points, Spec.point_mono x y hpos,
    Spec.increasing_iff hx hy hd hpos, Spec.unrepeating_iff hx hy hd hpos, ?numbers, ?coarse,
    Spec.Apart.count_le⟩
  case points =>
    intro i hi
    exact Spec.reads_of_lt hx hy hd hpos hi
  case numbers =>
    intro hapart s gen hs hrecurrence hgen
    exact unrepeated_of_apart hs hx hy hd hpos hapart hrecurrence hgen
  case coarse =>
    intro hfar hcoarse
    exact Spec.apart_of_coarse hx hy hd horder hcoarse hfar

/-- In steps of one up to a billion, the points increase. -/
theorem points_increase_iff_billion :
    (Spec.double 0 1000000000 1).validate = .ok () ∧ (Spec.double 0 1000000000 1).Increasing := by
  have hv : (Spec.double 0 1000000000 1).validate = .ok () := rfl
  obtain ⟨x, y, d, ⟨hx, hy, hd⟩, -, -, hincreasing, -, -, hcoarse, -⟩ := points_increase_iff rfl hv
  obtain rfl := hx.unique Binary64.reads_zero
  obtain rfl := hy.unique Spec.reads_billion
  obtain rfl := hd.unique Binary64.reads_one
  refine ⟨hv, hincreasing.mpr (hcoarse ?_ ?_)⟩
  · have hfar := abs_rounded_lt_limit (q := 10 ^ 9 - 0) (by norm_num [abs_of_pos])
    exact (le_abs_self _).trans_lt hfar
  · have hstep : Binary64.step (Max.max |0| |10 ^ 9|) ≤ -4 :=
      Binary64.step_le_of_abs_lt (by norm_num) (by norm_num) (by norm_num)
    have hspacing := zpow_le_zpow_right₀ (a := (2 : ℚ)) (by norm_num) hstep
    rw [Spec.spacing]
    norm_num at hspacing ⊢
    linarith

/-- Beyond the integers of 53 bits, in steps of one: the first two points are equal, and so are the
last two. -/
theorem points_merge :
    (Spec.double 9007199254740992 9007199254740996 1).validate = .ok () ∧
      (Spec.double 9007199254740992 9007199254740996 1).sampleCount = 5 ∧
      ¬ (Spec.double 9007199254740992 9007199254740996 1).Increasing ∧
      ∃ gen, increment.numbers (.double 9007199254740992 9007199254740996 1) true = .ok gen ∧
        (NumberGen.machine.run (.init ⟨{}, 0⟩ :: List.replicate 6 .generate)
          (.start gen (.start fun _ => .ofSeed 0))).pass =
            [.double (9007199254740996 : Float), .double (9007199254740996 : Float),
              .double (9007199254740994 : Float), .double (9007199254740992 : Float),
              .double (9007199254740992 : Float)] := by
  refine ⟨rfl, by decide +kernel, ?_, _, rfl, rfl⟩
  intro h
  exact absurd (h 0 1 (by decide) (by decide +kernel)) (by decide +kernel)

end Doubles

end Strategy
end SynthData
