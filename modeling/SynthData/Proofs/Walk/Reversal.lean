import Mathlib.Data.Nat.Size
import SynthData.Proofs.Guarded.Walks
import SynthData.Proofs.Walk.Coverage

/-!
# The order of the reversed counters

`reverseBits` takes the bits of a number apart from below.  It is the reversal of a word
(`reverseBits_eq_reverse`), which is its own inverse, so the reversals of all counters are all
words of their length (`reversals_perm`).

A walk has a list ahead of it, the reversals of the counters that are left (`ahead`), and each
call takes the head of that list (`next_ahead`): the pass is the list of `reversals` from its
head on (`next_reversals`).  The counter has as many bits as the last index, so that all even
counters lead to indices of the grid, and a call skips one counter at most (`seek_skips`).
-/
namespace SynthData.Walk

/-! ## Reversals of words -/

theorem bitLength_eq_size (n : Nat) : bitLength n = n.size := by
  unfold bitLength
  split
  · rename_i hzero
    rw [hzero, Nat.size_zero]
  · rename_i hpos
    apply Nat.le_antisymm
    · exact Nat.lt_size.mpr (Nat.log2_self_le hpos)
    · exact Nat.size_le.mpr Nat.lt_log2_self

/-- Bit `i` from below is bit `i` from above. -/
theorem testBit_reverseBits (bits n i : Nat) :
    (reverseBits bits n).testBit i = (decide (i < bits) && n.testBit (bits - 1 - i)) := by
  induction bits generalizing n i with
  | zero => simp [reverseBits]
  | succ bits ih =>
    have hsplit : reverseBits (bits + 1) n = 2 ^ bits * (n % 2) + reverseBits bits (n / 2) := by
      rw [Nat.mul_comm]
      rfl
    rw [hsplit, Nat.testBit_two_pow_mul_add _ (reverseBits_lt bits (n / 2))]
    by_cases hlow : i < bits
    · have hplace : bits + 1 - 1 - i = (bits - 1 - i) + 1 := by omega
      rw [if_pos hlow, ih, hplace, Nat.testBit_add_one]
      simp [hlow, show i < bits + 1 by omega]
    · by_cases htop : i = bits
      · subst htop
        simp [Nat.testBit_zero]
      · have hbit : (n % 2).testBit (i - bits) = false :=
          Nat.testBit_lt_two_pow (Nat.lt_of_lt_of_le (Nat.mod_lt n Nat.two_pos)
            (Nat.le_pow (by omega)))
        simp [hlow, hbit, show ¬ i < bits + 1 by omega]

/-- The reversal of the lowest bits is the reversal of a word of as many bits. -/
theorem reverseBits_eq_reverse (bits n : Nat) :
    reverseBits bits n = (BitVec.ofNat bits n).reverse.toNat := by
  apply Nat.eq_of_testBit_eq
  intro i
  rw [testBit_reverseBits, BitVec.testBit_toNat, BitVec.getLsbD_reverse,
    BitVec.getMsbD_eq_getLsbD, BitVec.getLsbD_ofNat]
  by_cases hi : i < bits
  · simp [hi, show bits - 1 - i < bits by omega]
  · simp [hi]

/-- The reversal of a reversal is the number itself. -/
theorem reverseBits_reverseBits {bits n : Nat} (hn : n < 2 ^ bits) :
    reverseBits bits (reverseBits bits n) = n := by
  rw [reverseBits_eq_reverse, reverseBits_eq_reverse, BitVec.ofNat_toNat, BitVec.setWidth_eq,
    BitVec.reverse_reverse_eq, BitVec.toNat_ofNat, Nat.mod_eq_of_lt hn]

/-- An even number reverses to one without the highest bit. -/
theorem reverseBits_even {n : Nat} (bits : Nat) (heven : n % 2 = 0) :
    reverseBits (bits + 1) n < 2 ^ bits := by
  show n % 2 * 2 ^ bits + reverseBits bits (n / 2) < 2 ^ bits
  rw [heven, Nat.zero_mul, Nat.zero_add]
  exact reverseBits_lt bits (n / 2)

/-! ## Lists of reversals -/

/-- The reversals of counters, in their order, without those that are no index below `n`. -/
def reversals (bits n : Nat) (counters : List Nat) : List Nat :=
  (counters.map fun c => (BitVec.ofNat bits c).reverse.toNat).filter (· < n)

/-- **The reversals of all counters are all indices**, as each index is the reversal of its own
reversal. -/
theorem reversals_perm {bits n : Nat} (hn : n ≤ 2 ^ bits) :
    (reversals bits n (List.range (2 ^ bits))).Perm (List.range n) := by
  have hreverse : (fun c => (BitVec.ofNat bits c).reverse.toNat) = reverseBits bits :=
    funext fun c => (reverseBits_eq_reverse bits c).symm
  rw [reversals, hreverse]
  refine (List.perm_ext_iff_of_nodup ?_ List.nodup_range).mpr ?_
  · refine (List.Nodup.map_on ?_ List.nodup_range).filter _
    intro c hc d hd heq
    exact reverseBits_inj (List.mem_range.mp hc) (List.mem_range.mp hd) heq
  · intro i
    simp only [List.mem_filter, List.mem_map, List.mem_range, decide_eq_true_eq]
    constructor
    · rintro ⟨-, hi⟩
      exact hi
    · intro hi
      exact ⟨⟨reverseBits bits i, reverseBits_lt bits i,
        reverseBits_reverseBits (Nat.lt_of_lt_of_le hi hn)⟩, hi⟩

namespace BitReverse

/-- What the counters that are left hold for a walk. -/
def ahead (count bits left : Nat) : List Nat :=
  reversals bits count (List.range' (2 ^ bits - left) left)

/-- The first counter that is left leads to the head of the list, or to nothing. -/
theorem ahead_succ (count : Nat) {bits left : Nat} (hleft : left + 1 ≤ 2 ^ bits) :
    ahead count bits (left + 1) =
      if reverseBits bits (2 ^ bits - (left + 1)) < count
      then reverseBits bits (2 ^ bits - (left + 1)) :: ahead count bits left
      else ahead count bits left := by
  have hnext : 2 ^ bits - (left + 1) + 1 = 2 ^ bits - left := by omega
  simp only [ahead, reversals, List.range'_succ, hnext, List.map_cons, List.filter_cons,
    ← reverseBits_eq_reverse, decide_eq_true_eq]

/-- The search takes the head of the list, and leaves its tail. -/
theorem seek_ahead (count : Nat) {bits left : Nat} (hleft : left ≤ 2 ^ bits) :
    (seek count bits left).1 = (ahead count bits left).head? ∧
      ahead count bits (seek count bits left).2 = (ahead count bits left).tail := by
  induction left with
  | zero => exact ⟨rfl, rfl⟩
  | succ left ih =>
    have hrest := ih (by omega)
    rw [ahead_succ count hleft]
    unfold seek
    dsimp only
    by_cases hindex : reverseBits bits (2 ^ bits - (left + 1)) < count
    · rw [if_pos hindex, if_pos (show reverseBits bits (Nat.pow 2 bits - _) < count from hindex)]
      exact ⟨rfl, rfl⟩
    · rw [if_neg hindex,
        if_neg (show ¬ reverseBits bits (Nat.pow 2 bits - _) < count from hindex)]
      exact hrest

/-- **No two counters in a row are skipped.**  The even ones lead to indices, if these need all
the bits. -/
theorem seek_skips {count bits left : Nat} (hbits : bits = (count - 1).size)
    (hcount : 0 < count) (hleft : left ≤ 2 ^ bits) :
    left ≤ (seek count bits left).2 + 2 := by
  have heven (c : Nat) (hc : c % 2 = 0) : reverseBits bits c < count := by
    cases bits with
    | zero => exact hcount
    | succ bits =>
      have hlast : 2 ^ bits ≤ count - 1 := Nat.lt_size.mp (by omega)
      have := reverseBits_even bits hc
      omega
  rcases left with _ | _ | left
  · exact Nat.zero_le _
  · omega
  · unfold seek
    dsimp only
    split
    · omega
    · rename_i hskip
      have hodd : (Nat.pow 2 bits - (left + 1 + 1)) % 2 = 1 := by
        by_contra hne
        exact hskip (heven _ (by omega))
      have hnext : (Nat.pow 2 bits - (left + 1)) % 2 = 0 := by
        have : left + 2 ≤ Nat.pow 2 bits := hleft
        omega
      unfold seek
      dsimp only
      rw [if_pos (heven _ hnext)]

/-! ## Passes -/

/-- The walk after some calls of `next`. -/
def afterCalls (w : BitReverse) : (calls : Nat) → BitReverse
  | 0 => w
  | k + 1 => (w.afterCalls k).next.2

variable {n : Nat}

/-- A walk in the course of a pass over `n` indices: what it has ahead of it is what follows the
first `calls` reversals. -/
structure Course (n calls : Nat) (w : BitReverse) : Prop extends w.Visits n where
  bits_eq : w.bits = (n - 1).size
  ahead_eq : ahead n w.bits w.left =
    (reversals w.bits n (List.range (2 ^ w.bits))).drop calls

theorem course_rewind (w : BitReverse) (spec : Spec) :
    Course spec.sampleCount 0 (w.rewind spec) where
  toVisits := visits_rewind w spec
  bits_eq := bitLength_eq_size _
  ahead_eq := by
    have hall : (w.rewind spec).left = 2 ^ (w.rewind spec).bits := rfl
    rw [ahead, hall, Nat.sub_self, List.drop_zero, List.range_eq_range']

/-- **A call takes the next reversal.** -/
theorem Course.next {k : Nat} {w : BitReverse} (hw : Course n k w) :
    w.next.1 = (reversals w.bits n (List.range (2 ^ w.bits)))[k]? ∧
      Course n (k + 1) w.next.2 := by
  obtain ⟨hhead, htail⟩ := seek_ahead w.count hw.left_le
  have hvisits := (next_visits hw.toVisits).1
  rw [hw.count_eq] at hhead htail
  constructor
  · show (seek w.count w.bits w.left).1 = _
    rw [hw.count_eq, hhead, hw.ahead_eq, List.head?_drop]
  · refine ⟨hvisits, hw.bits_eq, ?_⟩
    show ahead n w.bits (seek w.count w.bits w.left).2 = _
    rw [hw.count_eq, htail, hw.ahead_eq, List.tail_drop]
    rfl

theorem Course.after {w : BitReverse} (hw : Course n 0 w) (k : Nat) :
    Course n k (w.afterCalls k) := by
  induction k with
  | zero => exact hw
  | succ k ih => exact ih.next.2

/-- **The pass is the list of all reversed counters** that are indices of the grid.  The call `k`
hands out the entry `k` of the list, which has every index once, so the calls from `n` on find
nothing.  Each call ends within two counters.  In words no operation is broken off: the counter
of 128 bits passes all words of `b` bits, also if `b` is 64, and nothing is moved by 64 places if
`b` is 0. -/
theorem next_reversals (w : BitReverse) (spec : Spec) (hn : spec.sampleCount < 2 ^ 64) :
    let n := spec.sampleCount
    let b := (n - 1).size
    let walk := (w.rewind spec).afterCalls
    let order := reversals b n (List.range (2 ^ b))
    (∀ k, (walk k).next.1 = order[k]?) ∧ order.Perm (List.range n) ∧
      (∀ k, n ≤ k → (walk k).next.1 = none) ∧
      (∀ k, (walk k).left ≤ (walk (k + 1)).left + 2) ∧
      ∀ k, (walk k).guardedNext = .ok (walk k).next := by
  intro n b walk order
  have hpos : 0 < n := spec.sampleCount_pos
  have hcourse (k : Nat) : Course n k (walk k) := (course_rewind w spec).after k
  have hcalls (k : Nat) : (walk k).next.1 = order[k]? := by
    have hcall := (hcourse k).next.1
    rwa [(hcourse k).bits_eq] at hcall
  have hlast : n - 1 < 2 ^ b := Nat.lt_size_self (n - 1)
  have hperm : order.Perm (List.range n) := reversals_perm (by omega)
  refine ⟨hcalls, hperm, ?ends, ?skips, ?words⟩
  case ends =>
    intro k hk
    rw [hcalls, List.getElem?_eq_none (by rwa [hperm.length_eq, List.length_range])]
  case skips =>
    intro k
    have hcount := (hcourse k).count_eq
    have hbits := (hcourse k).bits_eq
    rw [← hcount] at hbits hpos
    exact seek_skips hbits hpos (hcourse k).left_le
  case words =>
    intro k
    refine guardedNext_eq (hcourse k).toVisits ?_
    rw [(hcourse k).bits_eq]
    exact Nat.size_le.mpr (by omega)

/-- Six indices: of the eight counters, the fourth and the last are skipped. -/
theorem next_reversals_six :
    (Spec.long 10 20 2).sampleCount < 2 ^ 64 ∧
      ∀ k, ((new.rewind (.long 10 20 2)).afterCalls k).next.1 = [0, 4, 2, 1, 5, 3][k]? := by
  have hcount : (Spec.long 10 20 2).sampleCount = 6 := by decide
  have hlt : (Spec.long 10 20 2).sampleCount < 2 ^ 64 := by decide
  have hsize : (6 - 1 : Nat).size = 3 := by decide
  have hlist : reversals 3 6 (List.range (2 ^ 3)) = [0, 4, 2, 1, 5, 3] := by decide
  have hpass := (next_reversals new (.long 10 20 2) hlt).1
  rw [hcount, hsize, hlist] at hpass
  exact ⟨hlt, hpass⟩

end BitReverse
end SynthData.Walk
