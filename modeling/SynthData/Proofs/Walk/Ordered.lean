import SynthData.Proofs.Grid.Points
import SynthData.Walk.Ordered

/-!
# Walks in a fixed order

For each walk `Visits n` is the invariant of a pass over `n` indices, which
`rewind` establishes and `next` keeps; every index that is visited under it is
below `n`.

`Pending` says which indices are still to come.  A step `Spends` them: the index
that is visited was pending and is no longer, and no index becomes pending
again.  This holds of every walk that does not start over by itself.
-/
namespace SynthData.Walk

/-- **A step that uses indices up**, from a state over an index, if there is
one, to the next state. -/
structure Spends {ω : Type} (pending : ω → Nat → Prop) (w : ω) (index : Option Nat) (w' : ω) :
    Prop where
  spent : ∀ i ∈ index, pending w i ∧ ¬ pending w' i
  kept : ∀ i, pending w' i → pending w i

/-- The end of a pass uses nothing up. -/
theorem Spends.none {ω : Type} {pending : ω → Nat → Prop} {w : ω} :
    Spends pending w .none w :=
  ⟨nofun, fun _ h => h⟩

/-- A step of a walk is a step of a walk of several kinds. -/
theorem Spends.wrap {ω ω' : Type} {pending : ω' → Nat → Prop} {w w' : ω} {index : Option Nat}
    (wrap : ω → ω') (h : Spends (fun w => pending (wrap w)) w index w') :
    Spends pending (wrap w) index (wrap w') :=
  ⟨h.spent, h.kept⟩

/-- An order in which step `k` has the index `f k`. -/
theorem getElem?_map_range (f : Nat → Nat) (n k : Nat) :
    ((List.range n).map f)[k]? = if k < n then some (f k) else none := by
  rw [List.getElem?_map]
  by_cases h : k < n
  · rw [if_pos h, List.getElem?_range h, Option.map_some]
  · rw [if_neg h, List.getElem?_eq_none (by rw [List.length_range]; omega), Option.map_none]

/-! ## Strides -/

namespace Shuffle

/-- The present index belongs to the present round: it is `offset` modulo the
stride. -/
structure Visits (n : Nat) (w : Shuffle) : Prop where
  stride_pos : 0 < w.increment
  count_eq : w.count = n
  current : ∀ c ∈ w.current, c < n ∧ c % w.increment = w.offset

/-- What is left of the present round, and all of the rounds after it. -/
def Pending (w : Shuffle) (i : Nat) : Prop :=
  ∃ c ∈ w.current, (i % w.increment = w.offset ∧ c ≤ i) ∨ w.offset < i % w.increment

theorem visits_rewind {w : Shuffle} (hw : 0 < w.increment) (spec : Spec) :
    (w.rewind spec).Visits spec.sampleCount where
  stride_pos := hw
  count_eq := rfl
  current := fun c hc => by
    obtain rfl := Option.some.inj hc
    exact ⟨spec.sampleCount_pos, Nat.zero_mod _⟩

theorem next_visits {n : Nat} {w : Shuffle} (hw : w.Visits n) :
    w.next.2.Visits n ∧ ∀ i ∈ w.next.1, i < n := by
  cases hc : w.current with
  | none => simp only [next, hc]; exact ⟨hw, fun i hi => by cases hi⟩
  | some c =>
    obtain ⟨hlt, hmod⟩ := hw.current c hc
    have hcount := hw.count_eq
    simp only [next, hc]
    -- the round goes on, or the next one begins at the offset after its own
    split
    · refine ⟨⟨hw.stride_pos, hcount, fun d hd => ?_⟩, fun i hi => ?_⟩
      · obtain rfl := Option.some.inj hd
        exact ⟨by omega, by simpa using hmod⟩
      · obtain rfl := Option.some.inj hi
        exact hlt
    · refine ⟨⟨hw.stride_pos, hcount, fun d hd => ?_⟩, fun i hi => ?_⟩
      · simp only [Option.mem_def] at hd
        split at hd
        · obtain rfl := Option.some.inj hd
          exact ⟨by omega, Nat.mod_eq_of_lt (show w.offset + 1 < w.increment by omega)⟩
        · cases hd
      · obtain rfl := Option.some.inj hi
        exact hlt

theorem next_spends {n : Nat} {w : Shuffle} (hw : w.Visits n) :
    Spends Pending w w.next.1 w.next.2 := by
  cases hc : w.current with
  | none => simp only [next, hc]; exact .none
  | some c =>
    obtain ⟨hlt, hmod⟩ := hw.current c hc
    have hpos := hw.stride_pos
    have hnow : w.Pending c := ⟨c, hc, Or.inl ⟨hmod, Nat.le_refl c⟩⟩
    simp only [next, hc]
    split
    · refine ⟨fun i hi => ?_, fun i hi => ?_⟩
      · obtain rfl := Option.some.inj hi
        refine ⟨hnow, ?_⟩
        rintro ⟨d, hd, h⟩
        obtain rfl := Option.some.inj hd
        simp only at h
        omega
      · obtain ⟨d, hd, h⟩ := hi
        obtain rfl := Option.some.inj hd
        simp only at h
        exact ⟨c, hc, by omega⟩
    · -- the next round begins, at the offset after the present one
      have next_round {i : Nat}
          (hi : Pending { w with
            offset := w.offset + 1
            current := if w.offset + 1 < w.increment ∧ w.offset + 1 < w.count then
              some (w.offset + 1) else .none } i) : w.offset < i % w.increment := by
        obtain ⟨d, -, h⟩ := hi
        simp only at h
        omega
      refine ⟨fun i hi => ?_, fun i hi => ⟨c, hc, Or.inr (next_round hi)⟩⟩
      obtain rfl := Option.some.inj hi
      exact ⟨hnow, fun h => by have := next_round h; omega⟩

end Shuffle

/-! ## Equal steps -/

namespace Step

/-- The limits lie within the grid. -/
structure Visits (n : Nat) (w : Step) : Prop where
  low_nonneg : 0 ≤ w.low
  high_lt : w.high < n

/-- What lies in the direction of the steps. -/
def Pending (w : Step) (i : Nat) : Prop :=
  (0 < w.delta.toInt ∧ w.current ≤ i) ∨ (w.delta.toInt < 0 ∧ i ≤ w.current)

theorem bounds_visits (spec : Spec) (delta : Int64) (limit : Option Float) :
    0 ≤ (bounds spec delta limit).1 ∧ (bounds spec delta limit).2 < spec.sampleCount := by
  have hpos := spec.sampleCount_pos
  unfold bounds
  dsimp only
  split
  · exact ⟨Int.le_refl 0, by show (spec.sampleCount : Int) - 1 < _; omega⟩
  · split
    · split
      · exact ⟨Int.le_refl 0, by show min ((spec.sampleCount : Int) - 1) _ < _; omega⟩
      · exact ⟨Int.le_refl 0, by show (-1 : Int) < _; omega⟩
    · split
      · refine ⟨?_, by show (spec.sampleCount : Int) - 1 < _; omega⟩
        dsimp only
        split <;> omega
      · exact ⟨by show 0 ≤ (spec.sampleCount : Int) - 1 + 1; omega,
          by show (spec.sampleCount : Int) - 1 < _; omega⟩

theorem visits_rewind (w : Step) (spec : Spec) : (w.rewind spec).Visits spec.sampleCount :=
  ⟨(bounds_visits spec w.delta w.limit).1, (bounds_visits spec w.delta w.limit).2⟩

theorem next_visits {n : Nat} {w : Step} (hw : w.Visits n) :
    w.next.2.Visits n ∧ ∀ i ∈ w.next.1, i < n := by
  have hlow := hw.low_nonneg
  have hhigh := hw.high_lt
  unfold next
  split
  · exact ⟨hw, fun i hi => by cases hi⟩
  · rename_i h
    refine ⟨⟨hlow, hhigh⟩, fun i hi => ?_⟩
    obtain rfl := Option.some.inj hi
    omega

theorem next_delta (w : Step) : w.next.2.delta = w.delta := by
  unfold next
  split <;> rfl

theorem next_spends {n : Nat} {w : Step} (hw : w.Visits n) (hdelta : w.delta.toInt ≠ 0) :
    Spends Pending w w.next.1 w.next.2 := by
  have hlow := hw.low_nonneg
  unfold next
  split
  · exact .none
  · rename_i h
    -- a step that is not zero leaves the present index behind for good
    refine ⟨fun i hi => ?_, fun i hi => ?_⟩
    · obtain rfl := Option.some.inj hi
      simp only [Pending]
      omega
    · simp only [Pending] at hi ⊢
      omega

end Step

/-! ## Ascending order -/

namespace Cycle

/-- The present index is on the grid. -/
structure Visits (n : Nat) (w : Cycle) : Prop where
  count_eq : w.count = n
  current_lt : ∀ c ∈ w.current, c < n

/-- What has not been reached. -/
def Pending (w : Cycle) (i : Nat) : Prop := ∃ c ∈ w.current, c ≤ i

theorem visits_rewind (w : Cycle) (spec : Spec) : (w.rewind spec).Visits spec.sampleCount where
  count_eq := rfl
  current_lt := fun c hc => by
    obtain rfl := Option.some.inj hc
    exact spec.sampleCount_pos

theorem next_visits {n : Nat} {w : Cycle} (hw : w.Visits n) :
    w.next.2.Visits n ∧ ∀ i ∈ w.next.1, i < n := by
  cases hc : w.current with
  | none => simp only [next, hc]; exact ⟨hw, fun i hi => by cases hi⟩
  | some c =>
    have hlt := hw.current_lt c hc
    have hcount := hw.count_eq
    simp only [next, hc]
    refine ⟨⟨hcount, fun d hd => ?_⟩, fun i hi => ?_⟩
    · simp only [Option.mem_def] at hd
      split at hd
      · obtain rfl := Option.some.inj hd
        omega
      · split at hd
        · cases hd
        · obtain rfl := Option.some.inj hd
          omega
    · obtain rfl := Option.some.inj hi
      exact hlt

theorem next_unique (w : Cycle) : w.next.2.unique = w.unique := by
  unfold next
  split <;> rfl

theorem next_spends {w : Cycle} (hunique : w.unique = true) :
    Spends Pending w w.next.1 w.next.2 := by
  cases hc : w.current with
  | none => simp only [next, hc]; exact .none
  | some c =>
    simp only [next, hc, hunique, if_true]
    have later {i : Nat}
        (hi : Pending { w with current := if c + 1 < w.count then some (c + 1) else .none } i) :
        c + 1 ≤ i := by
      obtain ⟨d, hd, h⟩ := hi
      simp only [Option.mem_def] at hd
      split at hd
      · obtain rfl := Option.some.inj hd
        exact h
      · cases hd
    refine ⟨fun i hi => ?_, fun i hi => ⟨c, hc, by have := later hi; omega⟩⟩
    obtain rfl := Option.some.inj hi
    exact ⟨⟨c, hc, Nat.le_refl c⟩, fun h => by have := later h; omega⟩

end Cycle

/-! ## The first indices -/

namespace First

/-- The walk stops within the grid. -/
def Visits (n : Nat) (w : First) : Prop := w.stop ≤ n

/-- What has not been reached. -/
def Pending (w : First) (i : Nat) : Prop := w.current ≤ i

theorem visits_rewind (w : First) (spec : Spec) : (w.rewind spec).Visits spec.sampleCount :=
  Nat.min_le_right _ _

theorem next_visits {n : Nat} {w : First} (hw : w.Visits n) :
    w.next.2.Visits n ∧ ∀ i ∈ w.next.1, i < n := by
  unfold next
  split
  · exact ⟨hw, fun i hi => by cases hi⟩
  · rename_i h
    refine ⟨hw, fun i hi => ?_⟩
    obtain rfl := Option.some.inj hi
    exact Nat.lt_of_lt_of_le (Nat.lt_of_not_le h) hw

theorem next_spends (w : First) : Spends Pending w w.next.1 w.next.2 := by
  unfold next
  split
  · exact .none
  · refine ⟨fun i hi => ?_, fun i hi => Nat.le_of_succ_le hi⟩
    obtain rfl := Option.some.inj hi
    exact ⟨Nat.le_refl _, Nat.not_succ_le_self _⟩

end First

/-! ## From both ends -/

namespace Wedge

/-- The two ends have not passed each other. -/
def Visits (n : Nat) (w : Wedge) : Prop := w.done = false → w.low ≤ w.high ∧ w.high < n

/-- What lies between the two ends. -/
def Pending (w : Wedge) (i : Nat) : Prop := w.done = false ∧ w.low ≤ i ∧ i ≤ w.high

theorem visits_rewind (w : Wedge) (spec : Spec) : (w.rewind spec).Visits spec.sampleCount := by
  intro _
  have := spec.sampleCount_pos
  exact ⟨Nat.zero_le _, by show spec.sampleCount - 1 < _; omega⟩

theorem next_visits {n : Nat} {w : Wedge} (hw : w.Visits n) :
    w.next.2.Visits n ∧ ∀ i ∈ w.next.1, i < n := by
  unfold next
  split
  · exact ⟨hw, fun i hi => by cases hi⟩
  · rename_i hdone
    obtain ⟨hle, hlt⟩ := hw (by simpa using hdone)
    refine ⟨fun h => ?_, fun i hi => ?_⟩
    · dsimp only at h ⊢
      split at h
      · cases h
      · rename_i hne
        rw [if_neg hne]
        split <;> dsimp only <;> omega
    · obtain rfl := Option.some.inj hi
      split <;> omega

theorem next_spends {n : Nat} {w : Wedge} (hw : w.Visits n) :
    Spends Pending w w.next.1 w.next.2 := by
  unfold next
  split
  · exact .none
  · rename_i hdone
    have hopen : w.done = false := by simpa using hdone
    obtain ⟨hle, -⟩ := hw hopen
    by_cases hmeet : w.low = w.high
    · -- the last index: nothing is left
      simp only [hmeet, if_true, ite_self]
      refine ⟨fun i hi => ?_, fun i hi => by cases hi.1⟩
      obtain rfl := Option.some.inj hi
      exact ⟨⟨hopen, by omega, Nat.le_refl _⟩, fun h => by cases h.1⟩
    · -- one of the two ends moves towards the other one
      simp only [if_neg hmeet]
      refine ⟨fun i hi => ?_, fun i hi => ?_⟩
      · obtain rfl := Option.some.inj hi
        refine ⟨⟨hopen, by split <;> omega, by split <;> omega⟩, ?_⟩
        rintro ⟨-, hlow, hhigh⟩
        cases hturn : w.fromLow with
        | true => simp only [hturn, if_true] at hlow; omega
        | false =>
          simp only [hturn, Bool.false_eq_true, if_false] at hlow hhigh
          omega
      · obtain ⟨-, hlow, hhigh⟩ := hi
        refine ⟨hopen, ?_⟩
        cases hturn : w.fromLow with
        | true => simp only [hturn, if_true] at hlow hhigh; omega
        | false =>
          simp only [hturn, Bool.false_eq_true, if_false] at hlow hhigh
          omega

end Wedge

end SynthData.Walk
