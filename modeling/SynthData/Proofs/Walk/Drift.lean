import Mathlib.Algebra.Order.Floor.Div
import Mathlib.Data.Int.ModEq
import SynthData.Proofs.Walk.Drawn

/-!
# Where random steps lead

A walk by random steps is separated from its draws: `nextBy` is a call that draws a given step, and
`afterSteps` is the walk after calls that draw the steps of a sequence.  Only the present index
changes (`afterSteps_eq`), so what a call hands out is determined by the steps before it
(`answer_succ`).

A walk that may repeat indices wraps around at the ends of the grid and never ends (`Wraps`); one
that may not goes up until a step would leave the grid (`Climbs`).  Both hold for all sequences of
steps that may be drawn, and the calls of `next` draw such steps from their stream
(`next_drifts`).
-/
namespace SynthData.Walk.Drift

variable {n : Nat} {w : Drift} {step : Nat → Int}

/-! ## Calls that draw given steps -/

/-- A call of `next` that draws a given step. -/
def nextBy (step : Int) (w : Drift) : Option Nat × Drift :=
  match w.current with
  | none => (none, w)
  | some index => (some index, { w with current := w.move index step })

/-- The walk after some calls, each of which draws the step that is given for it. -/
def afterSteps (step : Nat → Int) (w : Drift) : (calls : Nat) → Drift
  | 0 => w
  | k + 1 => ((afterSteps step w k).nextBy (step k)).2

/-- What the call after some others hands out. -/
def answer (step : Nat → Int) (w : Drift) (calls : Nat) : Option Nat :=
  ((w.afterSteps step calls).nextBy (step calls)).1

/-- The walk after some calls of `next`, and the stream that they leave. -/
def afterCalls (rng : Rng) (w : Drift) : (calls : Nat) → Drift × Rng
  | 0 => (w, rng)
  | k + 1 => ((afterCalls rng w k).1.next (afterCalls rng w k).2).2

/-- Steps that may be drawn. -/
def Steps (least most : Int64) (step : Nat → Int) : Prop :=
  ∀ k, least.toInt ≤ step k ∧ step k ≤ most.toInt

theorem nextBy_fst (w : Drift) (step : Int) : (w.nextBy step).1 = w.current := by
  unfold nextBy
  split
  · rename_i hend
    exact hend.symm
  · rename_i index hindex
    exact hindex.symm

theorem nextBy_snd (w : Drift) (step : Int) :
    (w.nextBy step).2 = { w with current := w.current.bind (w.move · step) } := by
  obtain ⟨start, least, most, unique, count, current⟩ := w
  cases current with
  | none => rfl
  | some index => rfl

/-- Only the present index changes in the course of a pass. -/
theorem afterSteps_eq (step : Nat → Int) (w : Drift) (k : Nat) :
    ∃ current, w.afterSteps step k = { w with current := current } := by
  induction k with
  | zero => exact ⟨w.current, rfl⟩
  | succ k ih =>
    obtain ⟨current, hcurrent⟩ := ih
    rw [afterSteps, hcurrent, nextBy_snd]
    exact ⟨_, rfl⟩

theorem answer_zero (step : Nat → Int) (w : Drift) : answer step w 0 = w.current :=
  nextBy_fst w _

/-- **Each answer is where the last one's step led.** -/
theorem answer_succ (step : Nat → Int) (w : Drift) (k : Nat) :
    answer step w (k + 1) = (answer step w k).bind (w.move · (step k)) := by
  obtain ⟨current, hcurrent⟩ := afterSteps_eq step w k
  rw [answer, answer, nextBy_fst, nextBy_fst, afterSteps, nextBy_snd, hcurrent]
  rfl

/-! ## Draws -/

/-- A call of `next` draws its step from its stream. -/
theorem next_eq_nextBy (w : Drift) (rng : Rng) :
    let step := (rng.between w.least.toInt w.most.toInt).1
    (w.next rng).1 = (w.nextBy step).1 ∧ (w.next rng).2.1 = (w.nextBy step).2 := by
  unfold next nextBy
  cases w.current with
  | none => exact ⟨rfl, rfl⟩
  | some index => exact ⟨rfl, rfl⟩

/-- **The calls of `next` draw their steps from the stream**: they are the calls that draw certain
steps, all of which may be drawn. -/
theorem afterCalls_draws (hsteps : w.least ≤ w.most) (rng : Rng) :
    ∃ step, Steps w.least w.most step ∧ ∀ k,
      (w.afterCalls rng k).1 = w.afterSteps step k ∧
      ((w.afterCalls rng k).1.next (w.afterCalls rng k).2).1 = answer step w k := by
  have hle : w.least.toInt ≤ w.most.toInt := Int64.le_iff_toInt_le.mp hsteps
  let step (k : Nat) : Int := ((w.afterCalls rng k).2.between w.least.toInt w.most.toInt).1
  have hwalk (k : Nat) : (w.afterCalls rng k).1 = w.afterSteps step k := by
    induction k with
    | zero => rfl
    | succ k ih =>
      obtain ⟨current, hcurrent⟩ := afterSteps_eq step w k
      have hnext := (next_eq_nextBy (w.afterCalls rng k).1 (w.afterCalls rng k).2).2
      rw [ih, hcurrent] at hnext
      rw [afterCalls, afterSteps, ih, hcurrent]
      exact hnext
  refine ⟨step, ?_, ?_⟩
  · intro k
    exact ⟨Rng.le_between _ _ _, Rng.between_le hle _⟩
  · intro k
    obtain ⟨current, hcurrent⟩ := afterSteps_eq step w k
    have hnext := (next_eq_nextBy (w.afterCalls rng k).1 (w.afterCalls rng k).2).1
    rw [hwalk, hcurrent] at hnext
    refine ⟨hwalk k, ?_⟩
    rw [answer, hwalk, hcurrent]
    exact hnext

/-! ## Wrapping around -/

/-- The answers of a walk that wraps around: they begin at the start, there is always another one,
and the next one differs by the step that was drawn, modulo the number of indices. -/
structure Wraps (n start : Nat) (step : Nat → Int) (answer : Nat → Option Nat) : Prop where
  begins : answer 0 = some start
  endless : ∀ k, ∃ i, answer k = some i ∧ i < n
  moves : ∀ k i j, answer k = some i → answer (k + 1) = some j → (j : Int) ≡ i + step k [ZMOD n]

theorem move_wraps (hunique : w.unique = false) (hcount : w.count = n) (hn : 0 < n) (index : Nat)
    (step : Int) :
    ∃ j, w.move index step = some j ∧ j < n ∧ (j : Int) ≡ index + step [ZMOD n] := by
  have hnonneg := Int.emod_nonneg (index + step) (show (n : Int) ≠ 0 by omega)
  have hlt := Int.emod_lt_of_pos (index + step) (show (0 : Int) < n by omega)
  refine ⟨((index + step) % n).toNat, ?_, by omega, ?_⟩
  · simp only [move, hunique, hcount, Bool.false_eq_true, if_false, Int.ofNat_eq_natCast]
  · rw [Int.toNat_of_nonneg hnonneg]
    exact Int.mod_modEq _ _

/-- **A walk that may repeat indices wraps around**, whatever steps are drawn. -/
theorem wraps_answer (hunique : w.unique = false) (hcount : w.count = n) {start : Nat}
    (hcurrent : w.current = some start) (hstart : start < n) (step : Nat → Int) :
    Wraps n start step (answer step w) where
  begins := (answer_zero step w).trans hcurrent
  endless := by
    intro k
    induction k with
    | zero => exact ⟨start, (answer_zero step w).trans hcurrent, hstart⟩
    | succ k ih =>
      obtain ⟨i, hi, hlt⟩ := ih
      obtain ⟨j, hj, hlt', -⟩ := move_wraps hunique hcount (by omega) i (step k)
      exact ⟨j, by rw [answer_succ, hi, Option.bind_some, hj], hlt'⟩
  moves := by
    intro k i j hi hj
    obtain ⟨j', hj', -, hmod⟩ := move_wraps hunique hcount (by omega) i (step k)
    rw [answer_succ, hi, Option.bind_some, hj'] at hj
    obtain rfl := Option.some.inj hj
    exact hmod

/-! ## Climbing -/

/-- The answers of a walk that goes up: they begin at the start and rise by the steps that are
drawn, until one of these would leave the grid. -/
structure Climbs (n start : Nat) (least most : Int64) (step : Nat → Int)
    (answer : Nat → Option Nat) : Prop where
  begins : answer 0 = some start
  within : ∀ k i, answer k = some i → i < n
  rises : ∀ k i j, answer k = some i → answer (k + 1) = some j →
    i < j ∧ (j : Int) - i = step k ∧ least.toInt ≤ (j : Int) - i ∧ (j : Int) - i ≤ most.toInt
  ends_iff : ∀ k i, answer k = some i → (answer (k + 1) = none ↔ (n : Int) ≤ i + step k)
  ended : ∀ k, answer k = none → answer (k + 1) = none
  length_le : ∀ k, (n - start) ⌈/⌉ least.toInt.toNat ≤ k → answer k = none

theorem move_climbs (hunique : w.unique = true) (hcount : w.count = n) (index : Nat) (step : Int) :
    w.move index step = if (index : Int) + step < n then some (index + step).toNat else none := by
  simp only [move, hunique, hcount, if_true, Int.ofNat_eq_natCast]

/-- The answers rise by the least step at least. -/
theorem le_answer (hunique : w.unique = true) {start : Nat} (hcurrent : w.current = some start)
    (hleast : 0 < w.least.toInt) (hstep : ∀ k, w.least.toInt ≤ step k) {k i : Nat}
    (hi : answer step w k = some i) : start + w.least.toInt.toNat * k ≤ i := by
  induction k generalizing i with
  | zero =>
    rw [answer_zero, hcurrent] at hi
    obtain rfl := Option.some.inj hi
    omega
  | succ k ih =>
    rw [answer_succ] at hi
    obtain ⟨i', hi', hmove⟩ := Option.bind_eq_some_iff.mp hi
    rw [move_climbs hunique rfl] at hmove
    split at hmove
    · obtain rfl := Option.some.inj hmove
      have hle := ih hi'
      have hrise := hstep k
      rw [Nat.mul_add_one]
      omega
    · cases hmove

/-- **A walk that may not repeat indices climbs**, whatever steps are drawn. -/
theorem climbs_answer (hunique : w.unique = true) (hcount : w.count = n) {start : Nat}
    (hcurrent : w.current = some start) (hstart : start < n) (hleast : 0 < w.least.toInt)
    (hstep : Steps w.least w.most step) :
    Climbs n start w.least w.most step (answer step w) := by
  have hmove (k i : Nat) (hi : answer step w k = some i) : answer step w (k + 1) =
      if (i : Int) + step k < n then some (i + step k).toNat else none := by
    rw [answer_succ, hi, Option.bind_some, move_climbs hunique hcount]
  have hwithin (k i : Nat) (hi : answer step w k = some i) : i < n := by
    cases k with
    | zero =>
      rw [answer_zero, hcurrent] at hi
      obtain rfl := Option.some.inj hi
      exact hstart
    | succ k =>
      rw [answer_succ] at hi
      obtain ⟨i', hi', hmoved⟩ := Option.bind_eq_some_iff.mp hi
      have hpos : 0 < step k := Int.lt_of_lt_of_le hleast (hstep k).1
      exact (move_spec hcount (by omega) (fun _ => hpos) i hmoved).1
  refine ⟨(answer_zero step w).trans hcurrent, hwithin, ?rises, ?ends, ?ended, ?length⟩
  case rises =>
    intro k i j hi hj
    have hle := hstep k
    rw [hmove k i hi] at hj
    split at hj
    · obtain rfl := Option.some.inj hj
      omega
    · cases hj
  case ends =>
    intro k i hi
    rw [hmove k i hi]
    split
    · rename_i hon
      exact ⟨nofun, fun h => absurd hon (Int.not_lt.mpr h)⟩
    · rename_i hoff
      exact ⟨fun _ => Int.not_lt.mp hoff, fun _ => rfl⟩
  case ended =>
    intro k hend
    rw [answer_succ, hend, Option.bind_none]
  case length =>
    intro k hk
    cases hi : answer step w k with
    | none => rfl
    | some i =>
      -- after so many steps the index would be beyond the grid
      have hle := le_answer hunique hcurrent hleast (fun k => (hstep k).1) hi
      have hlt := hwithin k i hi
      have hmul := (ceilDiv_le_iff_le_mul (show 0 < w.least.toInt.toNat by omega)).mp hk
      omega

/-! ## Passes -/

/-- **A pass of random steps.**  For any steps that may be drawn, a walk that may repeat indices
begins at its start, stays on the grid, never ends, and moves by the steps modulo the number of
indices.  One that may not goes up by the steps and ends exactly when one of them would leave the
grid, so that it hands out no more indices than fit between its start and the end of the grid at
the least step.  The calls of `next` draw such steps from their stream. -/
theorem next_drifts (w : Drift) (hsteps : w.least ≤ w.most) (spec : Spec)
    (hw : w.Fits spec.sampleCount) :
    let n := spec.sampleCount
    let begun := w.rewind spec
    (∀ step, Steps w.least w.most step →
      (w.unique = false → Wraps n w.start step (answer step begun)) ∧
      (w.unique = true → Climbs n w.start w.least w.most step (answer step begun))) ∧
    ∀ rng, ∃ step, Steps w.least w.most step ∧ ∀ k,
      (begun.afterCalls rng k).1 = begun.afterSteps step k ∧
      ((begun.afterCalls rng k).1.next (begun.afterCalls rng k).2).1 = answer step begun k := by
  intro n begun
  constructor
  · intro step hstep
    constructor
    · intro hunique
      exact wraps_answer (w := begun) hunique rfl rfl hw.start_lt step
    · intro hunique
      exact climbs_answer (w := begun) hunique rfl rfl hw.start_lt (hw.upward hunique) hstep
  · intro rng
    exact afterCalls_draws (w := begun) hsteps rng

/-- Eleven indices from the second one on, by steps of two to five: the walk visits four of them,
and the next step would leave the grid. -/
theorem next_drifts_upwards :
    let w := new 1 2 5 true
    let spec := Spec.long (-20) 20 4
    let step : Nat → Int := fun k => if k = 1 then 2 else 3
    w.least ≤ w.most ∧ w.Fits spec.sampleCount ∧ Steps w.least w.most step ∧
      w.unique = true ∧ spec.sampleCount = 11 ∧
      (List.range 6).map (answer step (w.rewind spec)) =
        [some 1, some 4, some 6, some 9, none, none] ∧
      Climbs 11 1 2 5 step (answer step (w.rewind spec)) := by
  intro w spec step
  have hle : w.least ≤ w.most := by decide
  have hfits : w.Fits spec.sampleCount := ⟨by decide, fun _ => by decide⟩
  have hsteps : Steps w.least w.most step := by
    intro k
    show (2 : Int) ≤ (if k = 1 then 2 else 3) ∧ (if k = 1 then 2 else 3 : Int) ≤ 5
    split
    · decide
    · decide
  have hclimbs := ((next_drifts w hle spec hfits).1 step hsteps).2 rfl
  exact ⟨hle, hfits, hsteps, rfl, by decide, by decide, hclimbs⟩

end SynthData.Walk.Drift
