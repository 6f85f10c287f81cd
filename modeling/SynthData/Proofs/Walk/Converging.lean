import Mathlib.Data.List.Nodup
import SynthData.Proofs.Guarded.Walks

/-!
# From both ends, one index after the other

A walk from both ends takes the least index that is left and the largest one in turn: in call `k`
the index `k / 2` from the one end or the other one (`place`).  These are all indices below `n`,
whether `n` is odd or even (`places_perm`).

How far both ends have come is a function of the number of calls, until they meet in the last call
of the pass (`Course`).  A call does what its place says and leaves the walk in the course of the
next one (`Course.next`), so the pass is the list of all places (`next_converges`).
-/
namespace SynthData.Walk.Wedge

variable {n k : Nat}

/-! ## Places -/

/-- The index that is taken in call `k`: half as far from the first one, or from the last one. -/
def place (n k : Nat) : Nat := if k % 2 = 0 then k / 2 else n - 1 - (k - 1) / 2

/-- The indices in the order in which they are taken. -/
def places (n : Nat) : List Nat := (List.range n).map (place n)

theorem place_lt (hk : k < n) : place n k < n := by
  unfold place
  split <;> omega

/-- The two halves of the places do not meet. -/
theorem place_inj {j : Nat} (hj : j < n) (hk : k < n) (h : place n j = place n k) : j = k := by
  unfold place at h
  split at h <;> split at h <;> omega

/-- An index of the lower half is taken in an even call, one of the upper half in an odd one. -/
theorem exists_place {i : Nat} (hi : i < n) : ∃ k < n, place n k = i := by
  by_cases hlower : 2 * i < n
  · exact ⟨2 * i, hlower, by unfold place; rw [if_pos (by omega)]; omega⟩
  · exact ⟨2 * (n - 1 - i) + 1, by omega, by unfold place; rw [if_neg (by omega)]; omega⟩

/-- **The places are all indices, each of them once.** -/
theorem places_perm (n : Nat) : (places n).Perm (List.range n) := by
  refine (List.perm_ext_iff_of_nodup ?_ List.nodup_range).mpr fun i => ?_
  · refine List.Nodup.map_on ?_ List.nodup_range
    intro j hj k hk h
    exact place_inj (List.mem_range.mp hj) (List.mem_range.mp hk) h
  · simp only [places, List.mem_map, List.mem_range]
    constructor
    · rintro ⟨k, hk, rfl⟩
      exact place_lt hk
    · exact exists_place

/-! ## Passes -/

/-- The walk after some calls of `next`. -/
def afterCalls (w : Wedge) : (calls : Nat) → Wedge
  | 0 => w
  | k + 1 => (w.afterCalls k).next.2

/-- A walk in the course of a pass over `n` indices.  The lower end has moved in every even call,
the upper one in every odd call, and the walk ends with the call in which both are the same. -/
inductive Course (n : Nat) : Nat → Wedge → Prop where
  | between {k : Nat} (hk : k < n) :
    Course n k ⟨(k + 1) / 2, n - 1 - k / 2, decide (k % 2 = 0), false⟩
  | ended {k : Nat} (hk : n ≤ k) (low high : Nat) (fromLow : Bool) :
    Course n k ⟨low, high, fromLow, true⟩

theorem course_rewind (w : Wedge) (spec : Spec) : Course spec.sampleCount 0 (w.rewind spec) :=
  .between spec.sampleCount_pos

/-- The two ends do not pass each other. -/
theorem Course.visits {w : Wedge} (hw : Course n k w) : w.Visits n := by
  cases hw with
  | between hk => exact fun _ => ⟨by dsimp only; omega, by dsimp only; omega⟩
  | ended => exact fun hopen => by cases hopen

/-- A call takes the index of one end, and moves that end unless both are the same. -/
theorem next_of_open (low high : Nat) (fromLow : Bool) :
    next ⟨low, high, fromLow, false⟩ =
      (some (if fromLow then low else high),
        if low = high then ⟨low, high, !fromLow, true⟩
        else if fromLow then ⟨low + 1, high, false, false⟩ else ⟨low, high - 1, true, false⟩) := by
  by_cases hmeet : low = high
  · simp [next, hmeet]
  · cases fromLow <;> simp [next, hmeet]

/-- **A call takes the next place.** -/
theorem Course.next {w : Wedge} (hw : Course n k w) :
    w.next.1 = (places n)[k]? ∧ Course n (k + 1) w.next.2 := by
  rw [places, getElem?_map_range]
  cases hw with
  | between hk =>
    have hmeet : (k + 1) / 2 = n - 1 - k / 2 ↔ k + 1 = n := by omega
    rw [if_pos hk, next_of_open, place]
    simp only [hmeet, decide_eq_true_eq]
    constructor
    · congr 1
      split <;> omega
    · by_cases hlast : k + 1 = n
      · rw [if_pos hlast]
        exact .ended (by omega) ..
      · rw [if_neg hlast]
        have hnext := Course.between (n := n) (k := k + 1) (by omega)
        by_cases heven : k % 2 = 0
        · rw [if_pos heven]
          convert hnext using 2
          · omega
          · omega
          · exact (decide_eq_false (by omega)).symm
        · rw [if_neg heven]
          convert hnext using 2
          · omega
          · omega
          · exact (decide_eq_true (by omega)).symm
  | ended hk low high fromLow =>
    rw [if_neg (Nat.not_lt.mpr hk)]
    exact ⟨rfl, .ended (by omega) low high fromLow⟩

theorem Course.after {w : Wedge} (hw : Course n 0 w) (k : Nat) : Course n k (w.afterCalls k) := by
  induction k with
  | zero => exact hw
  | succ k ih => exact ih.next.2

/-- **The pass is the list of all places.**  Call `k` hands out the index `k / 2` from the first one
on if `k` is even, and from the last one on if it is odd, as long as `k` is less than the number of
indices, and the later calls find nothing.  So every index is handed out once, whether their number
is odd or even.  In words no operation is broken off: no end leaves the range before they meet. -/
theorem next_converges (w : Wedge) (spec : Spec) (hn : spec.sampleCount < 2 ^ 64) :
    let n := spec.sampleCount
    let walk := (w.rewind spec).afterCalls
    (∀ k, (walk k).next.1 =
      if k < n then some (if k % 2 = 0 then k / 2 else n - 1 - (k - 1) / 2) else none) ∧
      (∀ k, (walk k).next.1 = (places n)[k]?) ∧ (places n).Perm (List.range n) ∧
      ∀ k, (walk k).guardedNext = .ok (walk k).next := by
  intro n walk
  have hcourse (k : Nat) : Course n k (walk k) := (course_rewind w spec).after k
  have hcalls (k : Nat) : (walk k).next.1 = (places n)[k]? := (hcourse k).next.1
  refine ⟨fun k => ?formula, hcalls, places_perm n, fun k => guardedNext_eq (hcourse k).visits hn⟩
  case formula => exact (hcalls k).trans (getElem?_map_range (place n) n k)

/-- Five indices: the one in the middle comes last, from below. -/
theorem next_converges_five :
    (Spec.long 10 18 2).sampleCount < 2 ^ 64 ∧
      ∀ k, ((new.rewind (.long 10 18 2)).afterCalls k).next.1 = [0, 4, 1, 3, 2][k]? := by
  have hcount : (Spec.long 10 18 2).sampleCount = 5 := by decide
  have hlt : (Spec.long 10 18 2).sampleCount < 2 ^ 64 := by decide
  have hplaces : places 5 = [0, 4, 1, 3, 2] := by decide
  have hpass := (next_converges new (.long 10 18 2) hlt).2.1
  rw [hcount, hplaces] at hpass
  exact ⟨hlt, hpass⟩

end SynthData.Walk.Wedge
