import SynthData.Proofs.Walk.Ordered
import SynthData.Walk.Recurrence

/-!
# Members of a recurrence

The members of a sequence do not fall (`Sequence.members_ascend`), since three
members in a row are in order and the member after them is no less than the last
of them.

A walk that must not repeat an index passes over a member that equals the one
before it.  That is enough: the members that are left are all at least the
member visited last, and different members have different indices
(`gridIndex?_inj`).
-/
namespace SynthData.Walk

namespace Sequence

/-- Three members in order, with the member after them. -/
structure Ascends (s : Sequence) (t : Triple) : Prop where
  first_le : t.first ≤ t.second
  second_le : t.second ≤ t.third
  third_le : t.third ≤ s.following t

theorem start_ascends (s : Sequence) : s.Ascends s.start := by
  cases s <;> exact ⟨by decide, by decide, by decide⟩

theorem Ascends.next {s : Sequence} {t : Triple} (ht : s.Ascends t) :
    s.Ascends ⟨t.second, t.third, s.following t⟩ := by
  refine ⟨ht.second_le, ht.third_le, ?_⟩
  have hfirst := ht.first_le
  have hsecond := ht.second_le
  cases s with
  | fibonacci => exact Nat.le_add_left _ _
  | padovan => exact Nat.add_le_add hfirst hsecond

theorem membersFrom_ascend {s : Sequence} (most : Nat) {t : Triple} (ht : s.Ascends t) :
    (∀ n ∈ s.membersFrom most t, t.first ≤ n) ∧
      (s.membersFrom most t).Pairwise (fun a b => a ≤ b) := by
  induction most generalizing t with
  | zero => exact ⟨nofun, List.Pairwise.nil⟩
  | succ most ih =>
    obtain ⟨hle, hrest⟩ := ih ht.next
    unfold membersFrom
    split
    · refine ⟨fun n hn => ?_, List.pairwise_cons.mpr ⟨fun n hn => ?_, hrest⟩⟩
      · rcases List.mem_cons.mp hn with rfl | hn
        · exact Nat.le_refl _
        · exact Nat.le_trans ht.first_le (hle n hn)
      · exact Nat.le_trans ht.first_le (hle n hn)
    · exact ⟨nofun, List.Pairwise.nil⟩

theorem members_ascend (s : Sequence) : s.members.Pairwise (fun a b => a ≤ b) :=
  (membersFrom_ascend 320 s.start_ascends).2

end Sequence

namespace Recurrence

/-! ## The index of a member -/

/-- A number has an index if it is a point: the least number of the range and that many times the
granularity. -/
theorem gridIndex?_eq_some_iff {min max granularity : Int64} (hg : 0 < granularity.toInt)
    {term i : Nat} : gridIndex? (.long min max granularity) term = some i ↔
      (term : Int) = min.toInt + i * granularity.toInt := by
  simp only [gridIndex?, Int.ofNat_eq_natCast]
  constructor
  · intro h
    split at h
    · cases h
    · rename_i hon
      obtain ⟨hnonneg, hmod⟩ := not_or.mp hon
      have hdiv := Int.ediv_nonneg (a := (term : Int) - min.toInt) (by omega) (Int.le_of_lt hg)
      have hdvd : granularity.toInt ∣ (term : Int) - min.toInt :=
        Int.dvd_of_tmod_eq_zero (Decidable.not_not.mp hmod)
      rw [← Option.some.inj h, Int.toNat_of_nonneg hdiv, Int.ediv_mul_cancel hdvd]
      omega
  · intro h
    have hoffset : (term : Int) - min.toInt = i * granularity.toInt := by omega
    have hnonneg : 0 ≤ (i : Int) * granularity.toInt :=
      Int.mul_nonneg (Int.natCast_nonneg i) (Int.le_of_lt hg)
    rw [hoffset, if_neg (by rw [Int.mul_tmod_left]; omega),
      Int.mul_ediv_cancel _ (Int.ne_of_gt hg), Int.toNat_natCast]

theorem gridIndex?_hasPoint {spec : Spec} (hv : spec.validate = .ok ()) {term i : Nat}
    (hmax : beyondMax spec term = false) (h : gridIndex? spec term = some i) :
    spec.HasPoint i := by
  cases spec with
  | double min max granularity =>
    unfold gridIndex? at h
    dsimp only at h
    split at h
    · cases h
    · rename_i index hindex
      split at h
      · rw [← Option.some.inj h]
        exact Spec.floorIndex?_lt hindex
      · cases h
  | long min max granularity =>
    have hle : (term : Int) ≤ max.toInt := by simpa [beyondMax] using hmax
    rw [(gridIndex?_eq_some_iff (Spec.validate_long.mp hv).2).mp h] at hle
    exact hle

/-- Different members have different indices. -/
def TellsApart (spec : Spec) : Prop :=
  ∀ term term' i, gridIndex? spec term = some i → gridIndex? spec term' = some i → term = term'

/-- Whole numbers are told apart. -/
theorem gridIndex?_inj {min max granularity : Int64} (hg : 0 < granularity.toInt)
    {term term' i : Nat} (h : gridIndex? (.long min max granularity) term = some i)
    (h' : gridIndex? (.long min max granularity) term' = some i) : term = term' := by
  have := (gridIndex?_eq_some_iff hg).mp h
  have := (gridIndex?_eq_some_iff hg).mp h'
  omega

/-! ## Walks -/

/-- The members that are left ascend, from the member visited last on. -/
structure Ascending (last : Option Nat) (rest : List Nat) : Prop where
  pairwise : rest.Pairwise (fun a b => a ≤ b)
  last_le : ∀ l ∈ last, ∀ t ∈ rest, l ≤ t

theorem Ascending.tail {last : Option Nat} {term : Nat} {rest : List Nat}
    (h : Ascending last (term :: rest)) : Ascending last rest :=
  ⟨(List.pairwise_cons.mp h.pairwise).2,
    fun l hl t ht => h.last_le l hl t (List.mem_cons_of_mem _ ht)⟩

theorem Ascending.visit {last : Option Nat} {term : Nat} {rest : List Nat}
    (h : Ascending last (term :: rest)) : Ascending (some term) rest :=
  ⟨(List.pairwise_cons.mp h.pairwise).2, fun l hl t ht => by
    obtain rfl := Option.some.inj hl
    exact (List.pairwise_cons.mp h.pairwise).1 t ht⟩

theorem Ascending.nil (last : Option Nat) : Ascending last [] :=
  ⟨List.Pairwise.nil, nofun⟩

/-- An index is pending if a member that is left, other than the one visited
last, has it. -/
def PendingIn (spec : Spec) (last : Option Nat) (rest : List Nat) (i : Nat) : Prop :=
  ∃ t ∈ rest, last ≠ some t ∧ gridIndex? spec t = some i

theorem PendingIn.cons {spec : Spec} {last : Option Nat} {rest : List Nat} {i : Nat}
    (h : PendingIn spec last rest i) (term : Nat) : PendingIn spec last (term :: rest) i := by
  obtain ⟨t, ht, hne, hi⟩ := h
  exact ⟨t, List.mem_cons_of_mem _ ht, hne, hi⟩

theorem seek_ascending (unique : Bool) (spec : Spec) (last : Option Nat) (rest : List Nat)
    (h : Ascending last rest) :
    Ascending (seek unique spec last rest).2.2 (seek unique spec last rest).2.1 := by
  induction rest with
  | nil => exact .nil _
  | cons term rest ih =>
    unfold seek
    split
    · exact .nil _
    · split
      · exact ih h.tail
      · split
        · exact h.visit
        · exact ih h.tail

theorem seek_hasPoint (unique : Bool) {spec : Spec} (hv : spec.validate = .ok ())
    (last : Option Nat) (rest : List Nat) :
    ∀ i ∈ (seek unique spec last rest).1, spec.HasPoint i := by
  induction rest with
  | nil => nofun
  | cons term rest ih =>
    unfold seek
    split
    · nofun
    · rename_i hmax
      split
      · exact ih
      · split
        · rename_i index hindex
          intro i hi
          obtain rfl := Option.some.inj hi
          exact gridIndex?_hasPoint hv (by simpa using hmax) hindex
        · exact ih

/-- Without repetitions, the index that is found was pending and is no longer. -/
theorem seek_spends {spec : Spec} (hapart : TellsApart spec) (last : Option Nat)
    (rest : List Nat) (h : Ascending last rest) :
    let (index, rest', last') := seek true spec last rest
    (∀ i ∈ index, PendingIn spec last rest i ∧ ¬ PendingIn spec last' rest' i) ∧
      ∀ i, PendingIn spec last' rest' i → PendingIn spec last rest i := by
  induction rest with
  | nil => exact ⟨nofun, fun _ h => h⟩
  | cons term rest ih =>
    have after := ih h.tail
    dsimp only at after ⊢
    unfold seek
    split
    · exact ⟨nofun, fun i hi => by obtain ⟨t, ht, -⟩ := hi; cases ht⟩
    · rename_i hmax
      by_cases hlast : last = some term
      · -- the member visited last comes again and is passed over
        simp only [hlast, beq_self_eq_true, Bool.and_self, if_true] at after ⊢
        exact ⟨fun i hi => ⟨(after.1 i hi).1.cons term, (after.1 i hi).2⟩,
          fun i hi => (after.2 i hi).cons term⟩
      · rw [if_neg (by simpa using hlast)]
        split
        · rename_i index hindex
          refine ⟨fun i hi => ?_, fun i hi => ?_⟩
          · obtain rfl := Option.some.inj hi
            refine ⟨⟨term, List.mem_cons_self, hlast, hindex⟩, ?_⟩
            rintro ⟨t, -, hne, ht⟩
            exact hne (congrArg some (hapart term t index hindex ht))
          · obtain ⟨t, ht, hne, hi⟩ := hi
            refine ⟨t, List.mem_cons_of_mem _ ht, fun hl => hne ?_, hi⟩
            -- the member visited last is least, so it cannot come after `term`
            have hle := h.last_le t hl term List.mem_cons_self
            have hge := (List.pairwise_cons.mp h.pairwise).1 t ht
            exact congrArg some (Nat.le_antisymm hge hle)
        · exact ⟨fun i hi => ⟨(after.1 i hi).1.cons term, (after.1 i hi).2⟩,
            fun i hi => (after.2 i hi).cons term⟩

/-- The walk goes over the given range, upwards. -/
structure Visits (spec : Spec) (w : Recurrence) : Prop where
  spec_eq : w.spec = spec
  ascending : Ascending w.last w.rest

/-- The indices of the members that are left. -/
def Pending (w : Recurrence) (i : Nat) : Prop := PendingIn w.spec w.last w.rest i

theorem visits_rewind (w : Recurrence) (spec : Spec) : (w.rewind spec).Visits spec :=
  ⟨rfl, w.sequence.members_ascend, nofun⟩

theorem next_visits {spec : Spec} (hv : spec.validate = .ok ()) {w : Recurrence}
    (hw : w.Visits spec) : w.next.2.Visits spec ∧ ∀ i ∈ w.next.1, spec.HasPoint i := by
  have hspec := hw.spec_eq
  refine ⟨⟨hspec, seek_ascending w.unique w.spec w.last w.rest hw.ascending⟩, ?_⟩
  exact hspec ▸ seek_hasPoint w.unique (hspec ▸ hv) w.last w.rest

theorem next_spends {spec : Spec} (hapart : TellsApart spec) {w : Recurrence}
    (hw : w.Visits spec) (hunique : w.unique = true) : Spends Pending w w.next.1 w.next.2 := by
  have h := seek_spends hapart w.last w.rest hw.ascending
  rw [← hw.spec_eq, ← hunique] at h
  exact ⟨h.1, h.2⟩

end Recurrence
end SynthData.Walk
