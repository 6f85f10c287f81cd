import Mathlib.Data.Nat.Fib.Basic
import SynthData.Proofs.Walk.Drawless
import SynthData.Proofs.Walk.Recurrence

/-!
# The terms of the recurrences

`Sequence.term` numbers the terms of a sequence, without any bound.  The members that are computed
are the terms before a certain place (`exists_members_eq`).  A sequence at most doubles from one
term to the next, so where the third term after one passes the bound, that one has passed every
whole number of 64 bits: no term that could be in a range is missing.

A term is visited if it is a point and, without repetitions, no term before it equals it
(`Visited`).  A walk knows only the member visited last; equal terms come one after the other, so
this is enough (`Behind`), and what a walk has ahead of it are the places of the terms to visit
(`aheadOf_eq`).
-/
namespace SynthData.Walk

/-- The Padovan numbers: each is the sum of the second and the third before it. -/
def padovanNumber : Nat → Nat
  | 0 | 1 | 2 => 1
  | k + 3 => padovanNumber (k + 1) + padovanNumber k

namespace Sequence

variable {s : Sequence} {k : Nat}

/-- The term at a place of the sequence. -/
def term : Sequence → Nat → Nat
  | fibonacci => Nat.fib
  | padovan => padovanNumber

/-- The three terms from a place on. -/
def triple (s : Sequence) (k : Nat) : Triple :=
  ⟨s.term k, s.term (k + 1), s.term (k + 2)⟩

theorem triple_zero (s : Sequence) : s.triple 0 = s.start := by
  cases s <;> rfl

theorem following_triple (s : Sequence) (k : Nat) : s.following (s.triple k) = s.term (k + 3) := by
  cases s with
  | fibonacci => exact (Nat.fib_add_two (n := k + 1)).symm
  | padovan => exact Nat.add_comm _ _

theorem triple_ascends (s : Sequence) (k : Nat) : s.Ascends (s.triple k) := by
  induction k with
  | zero => exact s.triple_zero ▸ s.start_ascends
  | succ k ih =>
    have hnext := ih.next
    rwa [following_triple] at hnext

theorem term_mono (s : Sequence) : Monotone s.term :=
  monotone_nat_of_le_succ fun k => (s.triple_ascends k).first_le

/-- Terms at most double, but for the one after zero. -/
theorem term_succ_le (s : Sequence) (k : Nat) : s.term (k + 1) ≤ 2 * s.term k + 1 := by
  match k with
  | 0 => cases s <;> decide
  | 1 => cases s <;> decide
  | k + 2 =>
    obtain ⟨hfirst, hsecond, -⟩ := s.triple_ascends k
    simp only [triple] at hfirst hsecond
    rw [← following_triple]
    cases s with
    | fibonacci => simp only [following, triple]; omega
    | padovan => simp only [following, triple]; omega

/-- A term whose third successor reaches the bound has passed all whole numbers of 64 bits. -/
theorem lt_term_of_bound_le (h : bound ≤ s.term (k + 3)) (v : Int64) : v.toInt < s.term k := by
  have hfirst : s.term (k + 1) ≤ 2 * s.term k + 1 := s.term_succ_le k
  have hsecond : s.term (k + 2) ≤ 2 * s.term (k + 1) + 1 := s.term_succ_le (k + 1)
  have hthird : s.term (k + 3) ≤ 2 * s.term (k + 2) + 1 := s.term_succ_le (k + 2)
  have hbound : bound = 2 ^ 127 := rfl
  have hv := v.toInt_lt
  omega

/-! ## The members that are computed -/

/-- The members from some place on are the terms from there on, up to a place whose third successor
reaches the bound or to the greatest number of members. -/
theorem exists_membersFrom_eq (s : Sequence) (most k : Nat) : ∃ count,
    s.membersFrom most (s.triple k) = (List.range' k count).map s.term ∧
      (count < most → bound ≤ s.term (k + count + 3)) := by
  induction most generalizing k with
  | zero => exact ⟨0, rfl, nofun⟩
  | succ most ih =>
    unfold membersFrom
    split
    · obtain ⟨count, heq, hbound⟩ := ih (k + 1)
      refine ⟨count + 1, ?_, fun hlt => ?_⟩
      · rw [List.range'_succ, List.map_cons, following_triple]
        exact congrArg (s.term k :: ·) heq
      · rw [show k + (count + 1) = k + 1 + count by omega]
        exact hbound (by omega)
    · rename_i hreached
      rw [following_triple] at hreached
      exact ⟨0, rfl, fun _ => Nat.le_of_not_lt hreached⟩

theorem members_length_lt (s : Sequence) : s.members.length < 320 := by
  cases s <;> decide +kernel

/-- **The members are the terms before a place**, and the term there is above every whole number
of 64 bits. -/
theorem exists_members_eq (s : Sequence) : ∃ count,
    s.members = (List.range count).map s.term ∧ ∀ v : Int64, v.toInt < s.term count := by
  obtain ⟨count, heq, hbound⟩ := s.exists_membersFrom_eq 320 0
  rw [triple_zero, ← List.range_eq_range'] at heq
  have hlength := s.members_length_lt
  rw [members, heq, List.length_map, List.length_range] at hlength
  have hreached := hbound hlength
  rw [Nat.zero_add] at hreached
  exact ⟨count, heq, lt_term_of_bound_le hreached⟩

/-- A computation that ends before the greatest number of members does not depend on it. -/
theorem membersFrom_eq_of_length_lt {most more : Nat} {t : Triple}
    (h : (s.membersFrom most t).length < most) (hle : most ≤ more) :
    s.membersFrom more t = s.membersFrom most t := by
  induction most generalizing more t with
  | zero => exact absurd h (Nat.not_lt_zero _)
  | succ most ih =>
    obtain ⟨more, rfl⟩ : ∃ m, more = m + 1 := ⟨more - 1, by omega⟩
    unfold membersFrom at h ⊢
    split
    · rename_i hbelow
      rw [if_pos hbelow] at h
      rw [ih (Nat.lt_of_succ_lt_succ h) (Nat.le_of_succ_le_succ hle)]
    · rfl

/-- **The computation of the members ends by itself**: however many members are allowed, they are
the same ones. -/
theorem membersFrom_start {most : Nat} (h : 320 ≤ most) : s.membersFrom most s.start = s.members :=
  membersFrom_eq_of_length_lt s.members_length_lt h

end Sequence

namespace Recurrence

/-! ## What is ahead -/

/-- The indices of those members that a walk visits. -/
def aheadOf (unique : Bool) (spec : Spec) (last : Option Nat) : List Nat → List Nat
  | [] => []
  | term :: rest =>
    if beyondMax spec term then []
    else if unique && last == some term then aheadOf unique spec last rest
    else
      match gridIndex? spec term with
      | some index => index :: aheadOf unique spec (some term) rest
      | none => aheadOf unique spec last rest

/-- The indices that a walk still visits. -/
def ahead (w : Recurrence) : List Nat :=
  aheadOf w.unique w.spec w.last w.rest

/-- The index that is found is the head of those ahead, and the others remain. -/
theorem seek_ahead (unique : Bool) (spec : Spec) (last : Option Nat) (rest : List Nat) :
    (seek unique spec last rest).1 = (aheadOf unique spec last rest).head? ∧
      aheadOf unique spec (seek unique spec last rest).2.2 (seek unique spec last rest).2.1 =
        (aheadOf unique spec last rest).tail := by
  induction rest with
  | nil => exact ⟨rfl, rfl⟩
  | cons term rest ih =>
    rw [seek, aheadOf]
    split
    · exact ⟨rfl, rfl⟩
    · split
      · exact ih
      · cases gridIndex? spec term with
        | some index => exact ⟨rfl, rfl⟩
        | none => exact ih

/-- **A call takes the head of the list, and leaves its tail.** -/
theorem next_ahead (w : Recurrence) :
    w.next.1 = w.ahead.head? ∧ w.next.2.ahead = w.ahead.tail :=
  seek_ahead w.unique w.spec w.last w.rest

/-- A walk over the members of a sequence finds the indices that it has ahead of it. -/
theorem goes (w : Recurrence) : (Walk.recurrence w).Goes fun k => w.ahead[k]? := by
  refine .of_ahead (fun walk indices => ∃ w, walk = .recurrence w ∧ indices = w.ahead) ?_
    ⟨w, rfl, rfl⟩
  rintro _ _ rng ⟨w, rfl, rfl⟩
  obtain ⟨hhead, htail⟩ := w.next_ahead
  exact ⟨hhead, w.next.2, rfl, htail.symm⟩

/-! ## The terms to visit -/

/-- A number in a range, some multiple of the granularity above the least number of it. -/
def OnGrid (min max granularity : Int64) (number : Nat) : Prop :=
  min.toInt ≤ number ∧ (number : Int) ≤ max.toInt ∧ granularity.toInt ∣ number - min.toInt

/-- The terms that are visited are points.  Without repetitions, equal terms are visited once. -/
def Visited (s : Sequence) (unique : Bool) (min max granularity : Int64) (k : Nat) : Prop :=
  OnGrid min max granularity (s.term k) ∧ (unique = true → ∀ j, j < k → s.term j ≠ s.term k)

instance (min max granularity : Int64) (number : Nat) :
    Decidable (OnGrid min max granularity number) :=
  inferInstanceAs (Decidable (_ ∧ _ ∧ _))

instance (s : Sequence) (unique : Bool) (min max granularity : Int64) (k : Nat) :
    Decidable (Visited s unique min max granularity k) :=
  inferInstanceAs (Decidable (_ ∧ (_ → _)))

/-- The index of a point. -/
def indexOf (min granularity : Int64) (number : Nat) : Nat :=
  ((number - min.toInt) / granularity.toInt).toNat

variable {min max granularity : Int64} {s : Sequence} {unique : Bool} {k : Nat}

/-- A point lies as many times the granularity above the least number as its index says. -/
theorem indexOf_mul (hg : 0 < granularity.toInt) {number : Nat}
    (hon : OnGrid min max granularity number) :
    min.toInt + (indexOf min granularity number : Int) * granularity.toInt = number := by
  obtain ⟨hmin, -, hdvd⟩ := hon
  have hnonneg : 0 ≤ ((number : Int) - min.toInt) / granularity.toInt :=
    Int.ediv_nonneg (by omega) (Int.le_of_lt hg)
  rw [indexOf, Int.toNat_of_nonneg hnonneg, Int.ediv_mul_cancel hdvd]
  omega

/-- A number that is not beyond the range has an index if and only if it is a point. -/
theorem gridIndex?_eq (hg : 0 < granularity.toInt) {number : Nat}
    (hmax : beyondMax (.long min max granularity) number = false) :
    gridIndex? (.long min max granularity) number =
      if OnGrid min max granularity number then some (indexOf min granularity number)
      else none := by
  split
  · rename_i hon
    exact (gridIndex?_eq_some_iff hg).mpr (indexOf_mul hg hon).symm
  · rename_i hoff
    refine Option.eq_none_iff_forall_ne_some.mpr fun i hi => hoff ?_
    have hi := (gridIndex?_eq_some_iff hg).mp hi
    have hle : (number : Int) ≤ max.toInt := by simpa [beyondMax] using hmax
    have hmul : 0 ≤ (i : Int) * granularity.toInt :=
      Int.mul_nonneg (Int.natCast_nonneg i) (Int.le_of_lt hg)
    exact ⟨by omega, hle, ⟨i, by rw [Int.mul_comm]; omega⟩⟩

/-- The value at the index of a point is the point. -/
theorem valueAt_indexOf (hg : 0 < granularity.toInt) {number : Nat}
    (hon : OnGrid min max granularity number) :
    (Spec.long min max granularity).valueAt (indexOf min granularity number) =
      .long (Int64.ofNat number) := by
  rw [Spec.valueAt, indexOf_mul hg hon, Int.min_eq_left hon.2.1]
  rfl

/-- The member visited last, beside the terms before a place: it is one of them, and it is the term
at the place if that one has been met already and is a point. -/
structure Behind (s : Sequence) (min max granularity : Int64) (last : Option Nat) (k : Nat) :
    Prop where
  earlier : ∀ l ∈ last, ∃ j, j < k ∧ s.term j = l
  latest : ∀ j, j < k → OnGrid min max granularity (s.term j) → s.term j = s.term k →
    last = some (s.term k)

theorem Behind.start : Behind s min max granularity none 0 :=
  ⟨nofun, nofun⟩

/-- Terms between equal ones are equal to them. -/
theorem term_eq_of_le {j : Nat} (hj : j ≤ k) (h : s.term j = s.term (k + 1)) :
    s.term k = s.term (k + 1) :=
  Nat.le_antisymm (s.term_mono (Nat.le_succ k)) (h ▸ s.term_mono hj)

theorem Behind.visit : Behind s min max granularity (some (s.term k)) (k + 1) where
  earlier := by
    rintro l ⟨⟩
    exact ⟨k, Nat.lt_succ_self k, rfl⟩
  latest := fun _ hj _ heq => congrArg some (term_eq_of_le (Nat.le_of_lt_succ hj) heq)

/-- Past a term that is not visited, the member visited last remains the same. -/
theorem Behind.pass {last : Option Nat} (h : Behind s min max granularity last k)
    (hpassed : OnGrid min max granularity (s.term k) → last = some (s.term k)) :
    Behind s min max granularity last (k + 1) where
  earlier := by
    intro l hl
    obtain ⟨j, hj, heq⟩ := h.earlier l hl
    exact ⟨j, Nat.lt_succ_of_lt hj, heq⟩
  latest := by
    intro j hj hon heq
    have hk := term_eq_of_le (Nat.le_of_lt_succ hj) heq
    rw [← hk]
    exact hpassed (by rwa [hk, ← heq])

/-- No term from one beyond the range on is visited. -/
theorem not_visited_of_lt (h : max.toInt < s.term k) {j : Nat} (hj : k ≤ j) :
    ¬ Visited s unique min max granularity j := by
  intro hvisited
  have hle := hvisited.1.2.1
  have hmono := Int.ofNat_le.mpr (s.term_mono hj)
  omega

/-- **What is ahead are the terms to visit**, at their places in order. -/
theorem aheadOf_eq (hg : 0 < granularity.toInt) (unique : Bool) {last : Option Nat} (count : Nat)
    (h : Behind s min max granularity last k) :
    aheadOf unique (.long min max granularity) last ((List.range' k count).map s.term) =
      ((List.range' k count).filter fun j => Visited s unique min max granularity j).map
        fun j => indexOf min granularity (s.term j) := by
  induction count generalizing k last with
  | zero => rfl
  | succ count ih =>
    rw [List.range'_succ, List.map_cons, aheadOf]
    cases hmax : beyondMax (.long min max granularity) (s.term k) with
    | true =>
      have hlt : max.toInt < s.term k := by simpa [beyondMax] using hmax
      have hnone : (k :: List.range' (k + 1) count).filter
          (fun j => Visited s unique min max granularity j) = [] := by
        refine List.filter_eq_nil_iff.mpr fun j hj => ?_
        rw [← List.range'_succ] at hj
        simpa using not_visited_of_lt hlt (List.mem_range'_1.mp hj).1
      rw [if_pos rfl, hnone, List.map_nil]
    | false =>
      rw [if_neg Bool.false_ne_true, gridIndex?_eq hg hmax]
      by_cases hlast : unique = true ∧ last = some (s.term k)
      · -- the member visited last comes again and is passed over
        obtain ⟨j, hj, heq⟩ := h.earlier _ hlast.2
        have hnot : ¬ Visited s unique min max granularity k :=
          fun hvisited => hvisited.2 hlast.1 j hj heq
        rw [if_pos (by simpa using hlast), List.filter_cons_of_neg (by simpa using hnot)]
        exact ih (h.pass fun _ => hlast.2)
      · rw [if_neg (by simpa using hlast)]
        by_cases hon : OnGrid min max granularity (s.term k)
        · have hvisited : Visited s unique min max granularity k :=
            ⟨hon, fun hunique j hj heq => hlast ⟨hunique, h.latest j hj (heq ▸ hon) heq⟩⟩
          rw [if_pos hon, List.filter_cons_of_pos (by simpa using hvisited), List.map_cons]
          exact congrArg _ (ih .visit)
        · have hnot : ¬ Visited s unique min max granularity k := fun hvisited => hon hvisited.1
          rw [if_neg hon, List.filter_cons_of_neg (by simpa using hnot)]
          exact ih (h.pass fun hon' => absurd hon' hon)

/-- Every term that is a point is visited, where it comes first. -/
theorem exists_visited (unique : Bool) {k : Nat}
    (hon : OnGrid min max granularity (s.term k)) :
    ∃ j, Visited s unique min max granularity j ∧ s.term j = s.term k := by
  induction k using Nat.strongRecOn with
  | ind k ih =>
    by_cases hfirst : ∀ j, j < k → s.term j ≠ s.term k
    · exact ⟨k, ⟨hon, fun _ => hfirst⟩, rfl⟩
    · obtain ⟨j, hj, heq⟩ : ∃ j, j < k ∧ s.term j = s.term k := by simpa using hfirst
      obtain ⟨i, hi, hterm⟩ := ih j hj (heq ▸ hon)
      exact ⟨i, hi, hterm.trans heq⟩

/-- **A pass has all terms to visit ahead of it**, at their places in order. -/
theorem ahead_new (min max : Int64) {granularity : Int64} (hg : 0 < granularity.toInt)
    (s : Sequence) (unique : Bool) :
    ∃ places : List Nat, places.Pairwise (· < ·) ∧
      (∀ k, k ∈ places ↔ Visited s unique min max granularity k) ∧
      (new s unique (.long min max granularity)).ahead =
        places.map fun k => indexOf min granularity (s.term k) := by
  obtain ⟨count, heq, hbeyond⟩ := s.exists_members_eq
  refine ⟨(List.range count).filter fun k => Visited s unique min max granularity k,
    List.pairwise_lt_range.filter _, fun k => ?_, ?_⟩
  · rw [List.mem_filter, List.mem_range, decide_eq_true_eq, and_iff_right_iff_imp]
    intro hvisited
    exact Nat.lt_of_not_le fun hle => not_visited_of_lt (hbeyond max) hle hvisited
  · have hstart : Behind s min max granularity none 0 := .start
    have hahead := aheadOf_eq hg unique count hstart
    rw [← List.range_eq_range', ← heq] at hahead
    exact hahead

end Recurrence
end SynthData.Walk
