import Mathlib.Algebra.BigOperators.Group.List.Basic
import Mathlib.Algebra.Order.BigOperators.Group.List
import Mathlib.Algebra.Order.Field.Basic
import Mathlib.Algebra.Order.Field.Rat
import Mathlib.Order.Interval.Set.Defs
import Mathlib.Tactic.Linarith
import Mathlib.Tactic.Ring
import SynthData.Proofs.Weight.Table

/-!
# Draws in proportion to weights

Tables of weights are read here over rational numbers, where nothing is rounded.
The draws that fall on a position are then an interval as long as the share that
its weight has in the total, and these intervals follow each other from zero to one
(`Proportional`).

Weights are refused exactly if one of them is negative, and there is no table
exactly if all of them are zero (`draws_proportional`).
-/
namespace SynthData.Weighing

/-- Rational numbers serve as weights unless they are negative. -/
instance : Weighing ℚ where
  zero := 0
  one := 1
  admits w := decide (0 ≤ w)
  isZero w := decide (w = 0)
  below a b := decide (a < b)

variable {weights : List ℚ}

theorem total_eq_sum (weights : List ℚ) : total weights = weights.sum :=
  List.sum_eq_foldl.symm

/-- What the first weights come to, divided by the total. -/
def bound (weights : List ℚ) (i : Nat) : ℚ := (weights.take i).sum / weights.sum

theorem bound_zero (weights : List ℚ) : bound weights 0 = 0 := by simp [bound]

theorem bound_length (hpos : 0 < weights.sum) : bound weights weights.length = 1 := by
  rw [bound, List.take_length, div_self hpos.ne']

/-- From one bound to the next there is room for one weight. -/
theorem bound_succ {i : Nat} (hi : i < weights.length) :
    bound weights (i + 1) - bound weights i = weights[i] / weights.sum := by
  rw [bound, bound, List.sum_take_succ weights i hi]
  ring

theorem bound_mono (hnonneg : ∀ w ∈ weights, 0 ≤ w) : Monotone (bound weights) := by
  have hsum : 0 ≤ weights.sum := List.sum_nonneg hnonneg
  refine monotone_nat_of_le_succ fun i => ?_
  by_cases hi : i < weights.length
  · have hstep := bound_succ hi
    have hweight : 0 ≤ weights[i] / weights.sum :=
      div_nonneg (hnonneg _ (List.getElem_mem hi)) hsum
    linarith
  · rw [bound, bound, List.take_of_length_le (by omega), List.take_of_length_le (by omega)]

/-- The entries of a table are the bounds that follow. -/
theorem shares_eq_bound (hpos : 0 < weights.sum) {i : Nat} (hi : i < weights.length) :
    (shares weights)[i]? = some (bound weights (i + 1)) := by
  by_cases hlast : i + 1 < weights.length
  · rw [getElem?_shares hlast, total_eq_sum, total_eq_sum, bound]
  · obtain rfl : i = weights.length - 1 := by omega
    rw [getElem?_shares_last (by omega), Nat.sub_add_cancel (by omega), bound_length hpos]
    rfl

/-- A draw falls between two bounds. -/
theorem lowerBound_shares (hpos : 0 < weights.sum) {u : ℚ} (hu : u < 1) :
    lowerBound (shares weights) u < weights.length ∧
      u ≤ bound weights (lowerBound (shares weights) u + 1) ∧
      (lowerBound (shares weights) u = 0 ∨ bound weights (lowerBound (shares weights) u) < u) := by
  have hlength : 0 < weights.length := by
    refine List.length_pos_iff.mpr ?_
    rintro rfl
    exact lt_irrefl _ hpos
  have hlast : (shares weights)[(shares weights).size - 1]? = some 1 := by
    rw [size_shares, getElem?_shares_last hlength]
    rfl
  have hdraw : below 1 u = false := decide_eq_false (not_lt.mpr hu.le)
  obtain ⟨⟨entry, hentry, hnot⟩, hbefore⟩ := lowerBound_between hlast hdraw
  have hlt : lowerBound (shares weights) u < weights.length := by
    rw [← size_shares weights]
    exact (Array.getElem?_eq_some_iff.mp hentry).1
  refine ⟨hlt, ?_, ?_⟩
  · rw [shares_eq_bound hpos hlt] at hentry
    obtain rfl := Option.some.inj hentry
    exact not_lt.mp (of_decide_eq_false hnot)
  · rcases Nat.eq_zero_or_pos (lowerBound (shares weights) u) with hzero | hne
    · exact Or.inl hzero
    · obtain ⟨entry', hentry', hbelow⟩ := hbefore.resolve_left hne.ne'
      rw [shares_eq_bound hpos (by omega), Nat.sub_add_cancel hne] at hentry'
      obtain rfl := Option.some.inj hentry'
      exact Or.inr (of_decide_eq_true hbelow)

/-- No other position has these bounds around the draw. -/
theorem lowerBound_shares_iff (hnonneg : ∀ w ∈ weights, 0 ≤ w) (hpos : 0 < weights.sum) {u : ℚ}
    (hu : u < 1) (i : Nat) :
    lowerBound (shares weights) u = i ↔
      i < weights.length ∧ u ≤ bound weights (i + 1) ∧ (i = 0 ∨ bound weights i < u) := by
  obtain ⟨hlt, hupper, hlower⟩ := lowerBound_shares hpos hu
  constructor
  · rintro rfl
    exact ⟨hlt, hupper, hlower⟩
  · rintro ⟨-, hupper', hlower'⟩
    by_contra hne
    -- of two positions the bounds of the one end where those of the other begin, or before
    rcases Nat.lt_or_gt_of_ne hne with hless | hgreater
    · have hbound := bound_mono hnonneg (show lowerBound (shares weights) u + 1 ≤ i from hless)
      have hstrict := hlower'.resolve_left (by omega)
      linarith
    · have hbound := bound_mono hnonneg (show i + 1 ≤ lowerBound (shares weights) u from hgreater)
      have hstrict := hlower.resolve_left (by omega)
      linarith

/-! ## Proportion -/

/-- The draws that fall on a position of a table. -/
def draws (table : Array ℚ) (i : Nat) : Set ℚ :=
  {u | u ∈ Set.Ico 0 1 ∧ lowerBound table u = i}

/-- **A table draws positions in proportion to weights.** -/
structure Proportional (weights : List ℚ) (table : Array ℚ) : Prop where
  /-- Where a draw falls is told by the sums of the first weights. -/
  falls : ∀ u ∈ Set.Ico (0 : ℚ) 1, lowerBound table u < weights.length ∧
    ∀ i < weights.length, lowerBound table u = i ↔
      u * weights.sum ≤ (weights.take (i + 1)).sum ∧
        (i = 0 ∨ (weights.take i).sum < u * weights.sum)
  /-- The draws that fall on a position are an interval, as long as the share of its weight. -/
  interval : ∀ i (hi : i < weights.length), ∃ low high, high - low = weights[i] / weights.sum ∧
    Set.Ioo low high ⊆ draws table i ∧ draws table i ⊆ Set.Icc low high
  /-- The intervals have no draw in common and leave none out. -/
  partition : ∀ u ∈ Set.Ico (0 : ℚ) 1, ∃! i, i < weights.length ∧ u ∈ draws table i

theorem shares_proportional (hnonneg : ∀ w ∈ weights, 0 ≤ w) (hpos : 0 < weights.sum) :
    Proportional weights (shares weights) where
  falls := by
    rintro u ⟨-, hu⟩
    refine ⟨(lowerBound_shares hpos hu).1, fun i hi => ?_⟩
    rw [lowerBound_shares_iff hnonneg hpos hu, bound, bound, le_div_iff₀ hpos, div_lt_iff₀ hpos]
    exact and_iff_right hi
  interval := by
    intro i hi
    refine ⟨bound weights i, bound weights (i + 1), bound_succ hi, ?_, ?_⟩
    · rintro u ⟨hlow, hhigh⟩
      -- all bounds are between zero and one
      have hfirst := bound_mono hnonneg (Nat.zero_le i)
      have hlast := bound_mono hnonneg (show i + 1 ≤ weights.length from hi)
      rw [bound_zero] at hfirst
      rw [bound_length hpos] at hlast
      have hu : u < 1 := by linarith
      exact ⟨⟨by linarith, hu⟩,
        (lowerBound_shares_iff hnonneg hpos hu i).mpr ⟨hi, hhigh.le, Or.inr hlow⟩⟩
    · rintro u ⟨⟨hzero, hu⟩, hfall⟩
      obtain ⟨-, hupper, hlower⟩ := (lowerBound_shares_iff hnonneg hpos hu i).mp hfall
      refine ⟨?_, hupper⟩
      rcases hlower with rfl | hlower
      · rwa [bound_zero]
      · exact hlower.le
  partition := by
    intro u hu
    refine ⟨lowerBound (shares weights) u, ⟨(lowerBound_shares hpos hu.2).1, hu, rfl⟩, ?_⟩
    rintro i ⟨-, -, hi⟩
    exact hi.symm

/-- **Exact weights are drawn in proportion.**  They are refused exactly if one is negative, at the
first such position; there is no table exactly if all are zero; and in any other case there is one,
which draws in proportion. -/
theorem draws_proportional (weights : List ℚ) :
    (∀ position weight, cumulativeTable weights = .error (position, weight) ↔
      weights[position]? = some weight ∧ weight < 0 ∧ ∀ w ∈ weights.take position, 0 ≤ w) ∧
    (cumulativeTable weights = .ok none ↔ ∀ w ∈ weights, w = 0) ∧
    ((∀ w ∈ weights, 0 ≤ w) → 0 < weights.sum →
      ∃ table, cumulativeTable weights = .ok (some table) ∧ Proportional weights table) := by
  have hadmits (h : ∀ w ∈ weights, 0 ≤ w) : ∀ w ∈ weights, admits w = true :=
    fun w hw => decide_eq_true (h w hw)
  have htable (hnonneg : ∀ w ∈ weights, 0 ≤ w) (hpos : 0 < weights.sum) :
      cumulativeTable weights = .ok (some (shares weights)) := by
    refine cumulativeTable_eq (hadmits hnonneg) (decide_eq_false ?_)
    rw [total_eq_sum]
    exact hpos.ne'
  refine ⟨?_, ⟨?_, ?_⟩, ?_⟩
  · intro position weight
    rw [cumulativeTable_error_iff]
    simp [admits]
  · intro h w hw
    obtain ⟨hnonneg, hzero⟩ := cumulativeTable_none_iff.mp h
    have hsum := of_decide_eq_true hzero
    rw [total_eq_sum] at hsum
    exact List.all_zero_of_le_zero_le_of_sum_eq_zero
      (fun w hw => of_decide_eq_true (hnonneg w hw)) hsum hw
  · intro hzero
    refine cumulativeTable_none_iff.mpr
      ⟨hadmits fun w hw => (hzero w hw).ge, decide_eq_true ?_⟩
    rw [total_eq_sum]
    exact List.sum_eq_zero hzero
  · intro hnonneg hpos
    exact ⟨_, htable hnonneg hpos, shares_proportional hnonneg hpos⟩

/-- Of three weights the middle one is zero. -/
theorem draws_proportional_threeWeights :
    ((∀ w ∈ [1, 0, 3], (0 : ℚ) ≤ w) ∧ (0 : ℚ) < [1, 0, 3].sum) ∧
      ∃ table, cumulativeTable ([1, 0, 3] : List ℚ) = .ok (some table) ∧
        Proportional [1, 0, 3] table := by
  have hnonneg : ∀ w ∈ [1, 0, 3], (0 : ℚ) ≤ w := by simp
  have hpos : (0 : ℚ) < [1, 0, 3].sum := by norm_num
  exact ⟨⟨hnonneg, hpos⟩, (draws_proportional [1, 0, 3]).2.2 hnonneg hpos⟩

end SynthData.Weighing
