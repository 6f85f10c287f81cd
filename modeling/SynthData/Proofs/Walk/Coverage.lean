import Mathlib.Data.Fintype.EquivFin
import SynthData.Proofs.Walk.Kinds

/-!
# Walks that lose no index

A walk without repetitions need not visit all indices of the grid.  `Full` holds of
those that do: all indices are pending when a pass begins (`pending_rewind`), and as
long as one is pending there is a next index, which is the only one that is not
pending any more after it (`next_spares`).

Each time the argument follows an index that is pending through one step.
-/
namespace SynthData.Walk

/-- **A step that loses no index** of a grid of `n` points, from a state over an index,
if there is one, to the next state. -/
def Spares {ω : Type} (n : Nat) (pending : ω → Nat → Prop) (w : ω) (index : Option Nat) (w' : ω) :
    Prop :=
  ∀ i < n, pending w i → ∃ j, index = some j ∧ (i = j ∨ pending w' i)

/-! ## Walks in a fixed order -/

/-- Two indices of the same round lie at least a stride apart. -/
theorem Shuffle.add_le_of_mod_eq {stride c i : Nat} (hmod : i % stride = c % stride) (hlt : c < i) :
    c + stride ≤ i := by
  have hdvd : stride ∣ i - c := Nat.dvd_of_mod_eq_zero (Nat.sub_mod_eq_zero_of_mod_eq hmod)
  have := Nat.le_of_dvd (by omega) hdvd
  omega

/-- The round goes on at the next index of it, or the next round begins at its least
index. -/
theorem Shuffle.next_spares {n : Nat} {w : Shuffle} (hw : w.Visits n) :
    Spares n Pending w w.next.1 w.next.2 := by
  rintro i hi ⟨c, (hc : w.current = some c), h⟩
  obtain ⟨hlt, hmod⟩ := hw.current c hc
  have hcount := hw.count_eq
  have hstride := Nat.mod_lt i hw.stride_pos
  have hle := Nat.mod_le i w.increment
  simp only [next, hc]
  by_cases hround : c + w.increment < w.count
  · rw [if_pos hround]
    refine ⟨c, rfl, ?_⟩
    rcases h with ⟨hsame, hafter⟩ | hlater
    · by_cases heq : i = c
      · exact Or.inl heq
      · have hnext := add_le_of_mod_eq (hsame.trans hmod.symm) (by omega)
        exact Or.inr ⟨_, rfl, Or.inl ⟨hsame, hnext⟩⟩
    · exact Or.inr ⟨_, rfl, Or.inr hlater⟩
  · rw [if_neg hround]
    refine ⟨c, rfl, ?_⟩
    rcases h with ⟨hsame, hafter⟩ | hlater
    · by_cases heq : i = c
      · exact Or.inl heq
      · have hnext := add_le_of_mod_eq (hsame.trans hmod.symm) (by omega)
        omega
    · refine Or.inr ⟨w.offset + 1, ?_, ?_⟩
      · rw [if_pos ⟨by omega, by omega⟩]
        rfl
      · show (i % w.increment = w.offset + 1 ∧ w.offset + 1 ≤ i) ∨ w.offset + 1 < i % w.increment
        omega

/-- The whole grid lies within the limits of a walk by single steps. -/
structure Step.Spans (n : Nat) (w : Step) : Prop where
  low_eq : w.low = 0
  high_eq : w.high = n - 1
  within : (w.delta = 1 ∧ 0 ≤ w.current) ∨ (w.delta = -1 ∧ w.current < n)

theorem Step.next_spans {n : Nat} {w : Step} (hw : w.Spans n) : w.next.2.Spans n := by
  unfold next
  split
  · exact hw
  · refine ⟨hw.low_eq, hw.high_eq, ?_⟩
    rcases hw.within with ⟨hdelta, hcurrent⟩ | ⟨hdelta, hcurrent⟩
    · refine Or.inl ⟨hdelta, ?_⟩
      show 0 ≤ w.current + w.delta.toInt
      rw [hdelta, show (1 : Int64).toInt = 1 from rfl]
      omega
    · refine Or.inr ⟨hdelta, ?_⟩
      show w.current + w.delta.toInt < n
      rw [hdelta, show (-1 : Int64).toInt = -1 from rfl]
      omega

theorem Step.next_spares {n : Nat} {w : Step} (hw : w.Spans n) :
    Spares n Pending w w.next.1 w.next.2 := by
  intro i hi hpending
  have hlow := hw.low_eq
  have hhigh := hw.high_eq
  have hpos : (1 : Int64).toInt = 1 := rfl
  have hneg : (-1 : Int64).toInt = -1 := rfl
  rcases hw.within with ⟨hdelta, hcurrent⟩ | ⟨hdelta, hcurrent⟩
  all_goals
    simp only [Pending, hdelta] at hpending
    have hon : ¬ (w.current < w.low ∨ w.high < w.current) := by omega
    refine ⟨w.current.toNat, by simp [next, hon], ?_⟩
    by_cases heq : i = w.current.toNat
    · exact Or.inl heq
    · right
      simp only [next, if_neg hon, Pending, hdelta]
      omega

theorem Cycle.next_spares {n : Nat} {w : Cycle} (hw : w.Visits n) (hunique : w.unique = true) :
    Spares n Pending w w.next.1 w.next.2 := by
  rintro i hi ⟨c, (hc : w.current = some c), h⟩
  have hcount := hw.count_eq
  simp only [next, hc, hunique, if_true]
  refine ⟨c, rfl, ?_⟩
  by_cases heq : i = c
  · exact Or.inl heq
  · exact Or.inr ⟨c + 1, if_pos (show c + 1 < w.count by omega), by omega⟩

theorem Wedge.next_spares (n : Nat) (w : Wedge) : Spares n Pending w w.next.1 w.next.2 := by
  rintro i hi ⟨hdone, hlow, hhigh⟩
  simp only [next, hdone, Bool.false_eq_true, if_false]
  refine ⟨_, rfl, ?_⟩
  by_cases heq : i = if w.fromLow then w.low else w.high
  · exact Or.inl heq
  · right
    by_cases hmeet : w.low = w.high
    · exfalso
      split at heq <;> omega
    · rw [if_neg hmeet]
      cases hturn : w.fromLow with
      | true =>
        simp only [hturn, if_true] at heq ⊢
        exact ⟨rfl, by show w.low + 1 ≤ i; omega, hhigh⟩
      | false =>
        simp only [hturn, Bool.false_eq_true, if_false] at heq ⊢
        exact ⟨rfl, hlow, by show i ≤ w.high - 1; omega⟩

/-! ## Reversed counters -/

/-- A counter that is left and has its reversal on the grid is found, or still left
after the one that is. -/
theorem BitReverse.seek_spares {count bits left k : Nat} (hcount : reverseBits bits k < count)
    (hk : k < 2 ^ bits) (hleft : 2 ^ bits ≤ k + left) :
    ∃ j, (seek count bits left).1 = some j ∧
      (reverseBits bits k = j ∨ 2 ^ bits ≤ k + (seek count bits left).2) := by
  induction left with
  | zero => omega
  | succ left ih =>
    unfold seek
    dsimp only
    by_cases hnow : k = Nat.pow 2 bits - (left + 1)
    · rw [if_pos (by rw [← hnow]; exact hcount)]
      exact ⟨_, rfl, Or.inl (by rw [hnow])⟩
    · split
      · exact ⟨_, rfl, Or.inr (by dsimp only; change ¬ k = 2 ^ bits - (left + 1) at hnow; omega)⟩
      · exact ih (by change ¬ k = 2 ^ bits - (left + 1) at hnow; omega)

theorem BitReverse.next_spares {n : Nat} {w : BitReverse} (hw : w.Visits n) :
    Spares n Pending w w.next.1 w.next.2 := by
  rintro i hi ⟨k, hk, hlt, rfl⟩
  obtain ⟨j, hj, h⟩ := seek_spares (hw.count_eq.symm ▸ hi) hlt hk
  exact ⟨j, hj, h.imp_right fun hleft => ⟨k, hleft, hlt, rfl⟩⟩

/-- Every number is the reversal of a counter. -/
theorem reverseBits_surj {bits n : Nat} (hn : n < 2 ^ bits) :
    ∃ k < 2 ^ bits, reverseBits bits k = n := by
  have hinj : Function.Injective fun k : Fin (2 ^ bits) =>
      (⟨reverseBits bits k, reverseBits_lt bits k⟩ : Fin (2 ^ bits)) :=
    fun a b h => Fin.ext (reverseBits_inj a.isLt b.isLt (congrArg Fin.val h))
  obtain ⟨k, hk⟩ := Finite.surjective_of_injective hinj ⟨n, hn⟩
  exact ⟨k, k.isLt, congrArg Fin.val hk⟩

theorem lt_two_pow_bitLength (n : Nat) : n < 2 ^ bitLength n := by
  unfold bitLength
  split
  · omega
  · exact Nat.lt_log2_self

/-! ## Random order -/

/-- The index of the first open place moves to the place that is drawn; all others stay
where they are. -/
theorem Random.take_spares {w : Random} {place : Nat} (hle : w.drawn ≤ place)
    (hlt : place < w.count) (n : Nat) :
    Spares n Pending w (some (w.take place).1) (w.take place).2 := by
  rintro i - ⟨p, hp, hpn, rfl⟩
  refine ⟨w.content place, rfl, ?_⟩
  by_cases hplace : p = place
  · exact Or.inl (by rw [hplace])
  · right
    by_cases hdrawn : p = w.drawn
    · exact ⟨place, by show w.drawn + 1 ≤ place; omega, hlt,
        by rw [content_take w place place (by omega), if_pos rfl, hdrawn]⟩
    · exact ⟨p, by show w.drawn + 1 ≤ p; omega, hpn,
        by rw [content_take w place p (by omega), if_neg hplace]⟩

theorem Random.next_spares {w : Random} (hunique : w.unique = true) (rng : Rng) (n : Nat) :
    Spares n Pending w (w.next rng).1 (w.next rng).2.1 := by
  simp only [next, hunique, if_true]
  split
  · rintro i - ⟨p, hp, hpn, -⟩
    omega
  · have hoffset := rng.below_lt (show 0 < w.count - w.drawn by omega)
    exact take_spares (Nat.le_add_right _ _) (by omega) n

/-! ## All kinds -/

/-- The walk visits all indices of a grid, each of them once. -/
def Full : Walk → Prop
  | random w => w.unique = true
  | cycle w => w.unique = true
  | step w => (w.delta = 1 ∨ w.delta = -1) ∧ w.initial = none ∧ w.limit = none
  | shuffle _ | wedge _ | bitReverse _ => True
  | cumulated _ | drift _ | recurrence _ | first _ => False

/-- The invariant of a pass of such a walk over a grid of `n` points, beside that of
all walks. -/
def Spans (n : Nat) : Walk → Prop
  | random w => w.unique = true
  | cycle w => w.unique = true
  | step w => w.Spans n
  | shuffle _ | wedge _ | bitReverse _ => True
  | cumulated _ | drift _ | recurrence _ | first _ => False

theorem Full.once {w : Walk} (hw : w.Full) : w.Once := by
  cases w with
  | step w =>
    show w.delta.toInt ≠ 0
    rcases hw.1 with hdelta | hdelta
    all_goals
      rw [hdelta]
      decide
  | random _ | cycle _ => exact hw
  | shuffle _ | wedge _ | bitReverse _ => trivial
  | cumulated _ | drift _ | recurrence _ | first _ => exact hw.elim

theorem Full.rewind {w : Walk} (hw : w.Full) (spec : Spec) : (w.rewind spec).Full := by
  cases w with
  | random _ | cycle _ | step _ => exact hw
  | shuffle _ | wedge _ | bitReverse _ => trivial
  | cumulated _ | drift _ | recurrence _ | first _ => exact hw.elim

theorem Full.next {w : Walk} (hw : w.Full) (rng : Rng) : (w.next rng).2.1.Full := by
  cases w with
  | random w => exact (w.next_unique rng).trans hw
  | cycle w => exact w.next_unique.trans hw
  | step w =>
    show (w.next.2.delta = 1 ∨ w.next.2.delta = -1) ∧ w.next.2.initial = none ∧
      w.next.2.limit = none
    unfold Step.next
    split
    all_goals exact hw
  | shuffle _ | wedge _ | bitReverse _ => trivial
  | cumulated _ | drift _ | recurrence _ | first _ => exact hw.elim

theorem spans_rewind {w : Walk} (hw : w.Full) (spec : Spec) :
    (w.rewind spec).Spans spec.sampleCount := by
  cases w with
  | step w =>
    obtain ⟨hdelta, hinitial, hlimit⟩ := hw
    have hpos := spec.sampleCount_pos
    refine ⟨by simp [Step.rewind, Step.bounds, hlimit], by simp [Step.rewind, Step.bounds, hlimit],
      ?_⟩
    rcases hdelta with hdelta | hdelta
    · refine Or.inl ⟨hdelta, ?_⟩
      simp [Step.rewind, Step.bounds, hlimit, hinitial, hdelta]
    · refine Or.inr ⟨hdelta, ?_⟩
      simp only [Step.rewind, Step.bounds, hlimit, hinitial, hdelta]
      show (spec.sampleCount : Int) - 1 < spec.sampleCount
      omega
  | random _ | cycle _ => exact hw
  | shuffle _ | wedge _ | bitReverse _ => trivial
  | cumulated _ | drift _ | recurrence _ | first _ => exact hw.elim

/-- **All indices are pending when a pass begins.** -/
theorem pending_rewind {w : Walk} (hw : w.Full) {spec : Spec} {i : Nat}
    (hi : i < spec.sampleCount) : (w.rewind spec).Pending i := by
  cases w with
  | random w => exact ⟨i, Nat.zero_le i, hi, by simp [Random.content, Random.rewind]⟩
  | shuffle w =>
    refine ⟨0, rfl, ?_⟩
    rcases Nat.eq_zero_or_pos (i % w.increment) with hzero | hpos
    · exact Or.inl ⟨hzero, Nat.zero_le i⟩
    · exact Or.inr hpos
  | step w =>
    obtain ⟨hdelta, hinitial, hlimit⟩ := hw
    rcases hdelta with hdelta | hdelta
    · left
      simp [Step.rewind, Step.bounds, hlimit, hinitial, hdelta]
    · refine Or.inr ⟨by rw [show (w.rewind spec).delta = -1 from hdelta]; decide, ?_⟩
      simp only [Step.rewind, Step.bounds, hlimit, hinitial, hdelta]
      show (i : Int) ≤ (spec.sampleCount : Int) - 1
      omega
  | cycle w => exact ⟨0, rfl, Nat.zero_le i⟩
  | wedge w => exact ⟨rfl, Nat.zero_le i, Nat.le_sub_one_of_lt hi⟩
  | bitReverse w =>
    have hbits := lt_two_pow_bitLength (spec.sampleCount - 1)
    have hlt : i < 2 ^ bitLength (spec.sampleCount - 1) := by omega
    obtain ⟨k, hk, hreverse⟩ := reverseBits_surj hlt
    exact ⟨k, Nat.le_add_left _ _, hk, hreverse⟩
  | cumulated _ | drift _ | recurrence _ | first _ => exact hw.elim

theorem next_spans {n : Nat} {w : Walk} (hw : w.Spans n) (rng : Rng) :
    (w.next rng).2.1.Spans n := by
  cases w with
  | random w => exact (w.next_unique rng).trans hw
  | step w => exact Step.next_spans hw
  | cycle w => exact w.next_unique.trans hw
  | shuffle _ | wedge _ | bitReverse _ => trivial
  | cumulated _ | drift _ | recurrence _ | first _ => exact hw.elim

/-- **No index is lost** in a pass of a walk that visits all of them. -/
theorem next_spares {spec : Spec} {w : Walk} (hw : w.Visits spec)
    (hspans : w.Spans spec.sampleCount) (rng : Rng) :
    Spares spec.sampleCount Pending w (w.next rng).1 (w.next rng).2.1 := by
  cases w with
  | random w => exact Random.next_spares hspans rng _
  | shuffle w => exact Shuffle.next_spares hw
  | step w => exact Step.next_spares hspans
  | cycle w => exact Cycle.next_spares hw hspans
  | wedge w => exact Wedge.next_spares _ w
  | bitReverse w => exact BitReverse.next_spares hw
  | cumulated _ | drift _ | recurrence _ | first _ => exact hspans.elim

end SynthData.Walk
