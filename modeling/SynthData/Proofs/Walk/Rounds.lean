import Mathlib.Data.List.Nodup
import SynthData.Proofs.Guarded.Walks
import SynthData.Proofs.Walk.Coverage

/-!
# The rounds of a walk by strides

A `round` holds the indices that strides lead to from its first one on.  Strides keep what an index
leaves modulo the stride, so the rounds from the indices below the stride have nothing in common,
and together they hold all indices (`rounds_perm`).

A walk has a list ahead of it, which is the rest of the present round followed by the rounds after
it (`ahead`), and each call takes the head of that list (`next_ahead`): the pass is the list of all
rounds (`next_rounds`).
-/
namespace SynthData.Walk.Shuffle

variable {stride n : Nat}

/-! ## Rounds -/

/-- The indices below `n` that lie some strides after the first one, which is among them. -/
def round (stride n first : Nat) : List Nat :=
  ((List.range n).map fun strides => first + strides * stride).filter (· < n)

/-- The rounds from all indices below the stride, one after the other. -/
def rounds (stride n : Nat) : List Nat :=
  (List.range (min stride n)).flatMap (round stride n)

theorem round_of_le {first : Nat} (h : n ≤ first) : round stride n first = [] := by
  refine List.filter_eq_nil_iff.mpr fun i hi => ?_
  obtain ⟨strides, -, rfl⟩ := List.mem_map.mp hi
  rw [decide_eq_true_eq]
  omega

/-- After its first index a round is the round that begins a stride later. -/
theorem round_eq_cons (hstride : 0 < stride) {first : Nat} (h : first < n) :
    round stride n first = first :: round stride n (first + stride) := by
  obtain ⟨n, rfl⟩ : ∃ m, n = m + 1 := ⟨n - 1, by omega⟩
  -- the later round has one more candidate, which lies beyond the grid
  have hbeyond : ¬ first + stride + n * stride < n + 1 := by
    have := Nat.le_mul_of_pos_right n hstride
    omega
  have hlater : round stride (n + 1) (first + stride) =
      ((List.range n).map fun strides => first + stride + strides * stride).filter (· < n + 1) := by
    rw [round, List.range_succ, List.map_append, List.filter_append, List.map_singleton,
      List.filter_cons_of_neg (by rwa [decide_eq_true_eq]), List.filter_nil, List.append_nil]
  have hnow : round stride (n + 1) first = first ::
      ((List.range n).map fun strides => first + (strides + 1) * stride).filter (· < n + 1) := by
    rw [round, List.range_succ_eq_map, List.map_cons, Nat.zero_mul, Nat.add_zero,
      List.filter_cons_of_pos (by rwa [decide_eq_true_eq]), List.map_map]
    rfl
  have hshift (strides : Nat) :
      first + (strides + 1) * stride = first + stride + strides * stride := by
    rw [Nat.add_one_mul]
    omega
  rw [hnow, hlater]
  simp only [hshift]

theorem mem_round (hstride : 0 < stride) {first i : Nat} :
    i ∈ round stride n first ↔ i < n ∧ first ≤ i ∧ i % stride = first % stride := by
  simp only [round, List.mem_filter, List.mem_map, List.mem_range, decide_eq_true_eq]
  constructor
  · rintro ⟨⟨strides, -, rfl⟩, hi⟩
    exact ⟨hi, Nat.le_add_right _ _, Nat.add_mul_mod_self_right _ _ _⟩
  · rintro ⟨hi, hle, hmod⟩
    obtain ⟨strides, hstrides⟩ : stride ∣ i - first :=
      Nat.dvd_of_mod_eq_zero (Nat.sub_mod_eq_zero_of_mod_eq hmod)
    have hlt := Nat.le_mul_of_pos_left strides hstride
    exact ⟨⟨strides, by omega, by rw [Nat.mul_comm]; omega⟩, hi⟩

theorem round_nodup (hstride : 0 < stride) (n first : Nat) : (round stride n first).Nodup := by
  refine (List.Nodup.map ?_ List.nodup_range).filter _
  intro strides strides' h
  exact Nat.eq_of_mul_eq_mul_right hstride (Nat.add_left_cancel h)

/-- **The rounds hold all indices, each of them once**: an index is in the round of what it leaves
modulo the stride. -/
theorem rounds_perm (hstride : 0 < stride) (n : Nat) :
    (rounds stride n).Perm (List.range n) := by
  refine (List.perm_ext_iff_of_nodup ?_ List.nodup_range).mpr fun i => ?_
  · refine List.nodup_flatMap.mpr ⟨fun first _ => round_nodup hstride n first, ?_⟩
    refine List.Pairwise.imp_of_mem ?_ List.pairwise_lt_range
    intro first later hfirst hlater hlt i hi hi'
    have hfirst : first < stride := (Nat.lt_min.mp (List.mem_range.mp hfirst)).1
    have hlater : later < stride := (Nat.lt_min.mp (List.mem_range.mp hlater)).1
    obtain ⟨-, -, hmod⟩ := (mem_round hstride).mp hi
    obtain ⟨-, -, hmod'⟩ := (mem_round hstride).mp hi'
    rw [Nat.mod_eq_of_lt hfirst] at hmod
    rw [Nat.mod_eq_of_lt hlater] at hmod'
    omega
  · simp only [rounds, List.mem_flatMap, List.mem_range, mem_round hstride]
    constructor
    · rintro ⟨-, -, hi, -⟩
      exact hi
    · intro hi
      have hlt := Nat.mod_lt i hstride
      have hle := Nat.mod_le i stride
      exact ⟨i % stride, by omega, hi, hle, (Nat.mod_mod i stride).symm⟩

/-! ## What is ahead -/

/-- The rest of the present round, and all of the rounds after it. -/
def ahead (n : Nat) (w : Shuffle) : List Nat :=
  match w.current with
  | none => []
  | some index => round w.increment n index ++
      (List.range' (w.offset + 1) (min w.increment n - (w.offset + 1))).flatMap
        (round w.increment n)

/-- Where the next round begins, all that is ahead is that round and those after it. -/
theorem ahead_offset (w : Shuffle) {offset : Nat} (h : offset < min w.increment n) :
    ahead n { w with offset := offset, current := some offset } =
      (List.range' offset (min w.increment n - offset)).flatMap (round w.increment n) := by
  have hlength : min w.increment n - offset = min w.increment n - (offset + 1) + 1 := by omega
  rw [hlength, List.range'_succ, List.flatMap_cons]
  rfl

/-- **A call takes the head of the list, and leaves its tail.** -/
theorem next_ahead {w : Shuffle} (hw : w.Visits n) :
    w.next.1 = (ahead n w).head? ∧ ahead n w.next.2 = (ahead n w).tail := by
  unfold next
  cases hc : w.current with
  | none => simp [ahead, hc]
  | some index =>
    obtain ⟨hlt, -⟩ := hw.current index hc
    have hcount := hw.count_eq
    have hround := round_eq_cons hw.stride_pos hlt
    by_cases hon : index + w.increment < w.count
    · simp [ahead, hc, hround, if_pos hon]
    · have hlast : round w.increment n (index + w.increment) = [] := round_of_le (by omega)
      dsimp only
      rw [if_neg hon]
      by_cases hnext : w.offset + 1 < w.increment ∧ w.offset + 1 < w.count
      · simp only [if_pos hnext]
        rw [ahead_offset w (by omega)]
        simp [ahead, hc, hround, hlast]
      · have hlength : min w.increment n - (w.offset + 1) = 0 := by omega
        simp [ahead, hc, hround, hlast, hnext, hlength]

/-! ## Passes -/

/-- The walk after some calls of `next`. -/
def afterCalls (w : Shuffle) : (calls : Nat) → Shuffle
  | 0 => w
  | k + 1 => (w.afterCalls k).next.2

/-- A walk in the course of a pass over `n` indices: what it has ahead of it is what follows the
first `calls` indices of all rounds. -/
structure Course (stride n calls : Nat) (w : Shuffle) : Prop extends w.Visits n where
  ahead_eq : ahead n w = (rounds stride n).drop calls

theorem course_rewind {w : Shuffle} (hw : 0 < w.increment) (spec : Spec) :
    Course w.increment spec.sampleCount 0 (w.rewind spec) where
  toVisits := visits_rewind hw spec
  ahead_eq := by
    have hpos := spec.sampleCount_pos
    have hfirst : 0 < min (w.rewind spec).increment spec.sampleCount := Nat.lt_min.mpr ⟨hw, hpos⟩
    have hahead := ahead_offset (w.rewind spec) hfirst
    rw [Nat.sub_zero, ← List.range_eq_range'] at hahead
    exact hahead

theorem Course.next {k : Nat} {w : Shuffle} (hw : Course stride n k w) :
    w.next.1 = (rounds stride n)[k]? ∧ Course stride n (k + 1) w.next.2 := by
  obtain ⟨hhead, htail⟩ := next_ahead hw.toVisits
  rw [hw.ahead_eq] at hhead htail
  rw [List.head?_drop] at hhead
  rw [List.tail_drop] at htail
  exact ⟨hhead, (next_visits hw.toVisits).1, htail⟩

theorem Course.after {w : Shuffle} (hw : Course stride n 0 w) (k : Nat) :
    Course stride n k (w.afterCalls k) := by
  induction k with
  | zero => exact hw
  | succ k ih => exact ih.next.2

/-- **The pass is the list of all rounds.**  The call `k` hands out the entry `k` of the list, which
has every index once, so the calls from `n` on find nothing.  In words no operation is broken off:
a stride that leads beyond the words ends a round, and no offset leaves them. -/
theorem next_rounds (w : Shuffle) (hw : 0 < w.increment) (spec : Spec)
    (hn : spec.sampleCount < 2 ^ 64) :
    let n := spec.sampleCount
    let walk := (w.rewind spec).afterCalls
    let order := rounds w.increment n
    (∀ k, (walk k).next.1 = order[k]?) ∧ order.Perm (List.range n) ∧
      (∀ k, n ≤ k → (walk k).next.1 = none) ∧
      ∀ k, (walk k).guardedNext = .ok (walk k).next := by
  intro n walk order
  have hcourse (k : Nat) : Course w.increment n k (walk k) := (course_rewind hw spec).after k
  have hcalls (k : Nat) : (walk k).next.1 = order[k]? := (hcourse k).next.1
  have hperm : order.Perm (List.range n) := rounds_perm hw n
  refine ⟨hcalls, hperm, ?ends, ?words⟩
  case ends =>
    intro k hk
    rw [hcalls, List.getElem?_eq_none (by rwa [hperm.length_eq, List.length_range])]
  case words =>
    intro k
    exact guardedNext_eq (hcourse k).toVisits hn

/-- Seven indices by strides of three: the last two rounds are shorter than the first one. -/
theorem next_rounds_sevenByThree :
    0 < (new 3).increment ∧ (Spec.long 10 22 2).sampleCount < 2 ^ 64 ∧
      ∀ k, (((new 3).rewind (.long 10 22 2)).afterCalls k).next.1 =
        [0, 3, 6, 1, 4, 2, 5][k]? := by
  have hpos : 0 < (new 3).increment := by decide
  have hcount : (Spec.long 10 22 2).sampleCount = 7 := by decide
  have hlt : (Spec.long 10 22 2).sampleCount < 2 ^ 64 := by decide
  have hlist : rounds 3 7 = [0, 3, 6, 1, 4, 2, 5] := by decide
  have hpass := (next_rounds (new 3) hpos (.long 10 22 2) hlt).1
  rw [hcount, show (new 3).increment = 3 from rfl, hlist] at hpass
  exact ⟨hpos, hlt, hpass⟩

end SynthData.Walk.Shuffle
