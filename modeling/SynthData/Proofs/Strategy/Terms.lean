import SynthData.Proofs.Strategy.Order
import SynthData.Proofs.Walk.Terms

/-!
# Numbers of the recurrences

The generators over a recurrence hand out the terms that are points of the range, in ascending
order, and then nothing (`numbers_visit_terms`).  With repetitions a term comes as often as the
recurrence has it, without them once.
-/
namespace SynthData.Strategy

open Walk (Recurrence)
open Walk.Recurrence (OnGrid Visited)

variable {min max granularity : Int64}

/-- The strategy that visits the terms of a sequence. -/
def ofSequence : Walk.Sequence → Strategy
  | .fibonacci => fibonacci
  | .padovan => padovan

theorem numbers_ofSequence (s : Walk.Sequence) {spec : Spec} (hv : spec.validate = .ok ())
    (unique : Bool) : ∃ owner,
      (ofSequence s).numbers spec unique =
        .ok (.grid owner (.new spec (.recurrence (.new s unique spec)))) := by
  cases s with
  | fibonacci => exact ⟨_, overGrid_eq_ok.mpr ⟨hv, rfl⟩⟩
  | padovan => exact ⟨_, overGrid_eq_ok.mpr ⟨hv, rfl⟩⟩

/-- **The terms of a recurrence.**  Over a valid range of whole numbers, each pass hands out the
terms at certain places of the sequence, in their order, and nothing after them.  These are the
places of the terms that are points; without repetitions, of these terms where they come first.
The members among which they are sought are the same ones however many of them are allowed, so
their computation ends by itself. -/
theorem numbers_visit_terms (s : Walk.Sequence) (unique : Bool)
    (hv : (Spec.long min max granularity).validate = .ok ()) :
    ∃ gen, ∃ places : List Nat,
      (ofSequence s).numbers (.long min max granularity) unique = .ok gen ∧
      (NumberGen.machine.EachPass gen fun n =>
        (places.map fun k => Number.long (Int64.ofNat (s.term k)))[n]?) ∧
      places.Pairwise (· < ·) ∧
      (∀ k, k ∈ places ↔ OnGrid min max granularity (s.term k) ∧
        (unique = true → ∀ j, j < k → s.term j ≠ s.term k)) ∧
      (∀ k, k ∈ places → (Int64.ofNat (s.term k)).toInt = s.term k) ∧
      (places.map s.term).Pairwise (· ≤ ·) ∧
      (unique = true → (places.map s.term).Nodup) ∧
      (∀ k, OnGrid min max granularity (s.term k) → s.term k ∈ places.map s.term) ∧
      ∀ most, 320 ≤ most → s.membersFrom most s.start = s.members := by
  have hg := (Spec.validate_long.mp hv).2
  obtain ⟨owner, hnumbers⟩ := numbers_ofSequence s hv unique
  obtain ⟨places, hordered, hplaces, hahead⟩ :=
    Recurrence.ahead_new min max hg s unique
  refine ⟨_, places, hnumbers, ?pass, hordered, hplaces, ?words, ?ascend, ?nodup, ?complete,
    fun most hmost => Walk.Sequence.membersFrom_start hmost⟩
  case pass =>
    have hpass := NumberGen.eachPass_grid owner hv
      (w := .recurrence (.new s unique (.long min max granularity))) trivial
      (Recurrence.goes (.new s unique (.long min max granularity)))
    simp only [← List.getElem?_map] at hpass
    have hvalues : (places.map fun k => Recurrence.indexOf min granularity (s.term k)).map
        (Spec.long min max granularity).valueAt =
          places.map fun k => .long (Int64.ofNat (s.term k)) := by
      rw [List.map_map]
      exact List.map_congr_left fun k hk => Recurrence.valueAt_indexOf hg ((hplaces k).mp hk).1
    rwa [hahead, hvalues] at hpass
  case words =>
    intro k hk
    obtain ⟨-, hle, -⟩ := ((hplaces k).mp hk).1
    have hmax := max.toInt_lt
    exact Int64.toInt_ofNat_of_lt (by omega)
  case ascend =>
    exact List.pairwise_map.mpr (hordered.imp fun hlt => s.term_mono (Nat.le_of_lt hlt))
  case nodup =>
    intro hunique
    refine List.pairwise_map.mpr (hordered.imp_of_mem fun _ hk' hlt => ?_)
    exact ((hplaces _).mp hk').2 hunique _ hlt
  case complete =>
    intro k hon
    obtain ⟨j, hvisited, heq⟩ := Recurrence.exists_visited unique hon
    exact List.mem_map.mpr ⟨j, (hplaces j).mpr hvisited, heq⟩

/-- Odd Fibonacci numbers, each of them once. -/
theorem numbers_visit_terms_odd :
    (Spec.long 1 100 2).validate = .ok () ∧ ∃ gen,
      fibonacci.numbers (.long 1 100 2) true = .ok gen ∧
      NumberGen.machine.EachPass gen fun n =>
        [.long 1, .long 3, .long 5, .long 13, .long 21, .long 55, .long 89][n]? := by
  have hv : (Spec.long 1 100 2).validate = .ok () := rfl
  obtain ⟨gen, places, hgen, hpass, hordered, hplaces, -⟩ :=
    numbers_visit_terms .fibonacci true hv
  have hterms := Walk.Sequence.fibonacci.term_mono
  have hlist : places = (List.range 12).filter fun k => Visited .fibonacci true 1 100 2 k := by
    refine ((List.perm_ext_iff_of_nodup (hordered.imp Nat.ne_of_lt)
      (List.nodup_range.filter _)).mpr fun k => ?_).eq_of_pairwise ?_ hordered
      (List.pairwise_lt_range.filter _)
    · rw [hplaces, List.mem_filter, List.mem_range, decide_eq_true_eq]
      refine ⟨fun hvisited => ⟨Nat.lt_of_not_le fun hle => ?_, hvisited⟩, And.right⟩
      have hmax : (Walk.Sequence.fibonacci.term k : Int) ≤ 100 := hvisited.1.2.1
      have hmono : 144 ≤ Walk.Sequence.fibonacci.term k := hterms hle
      omega
    · intro a b _ _ hab hba
      omega
  have hvalues : ((List.range 12).filter fun k => Visited .fibonacci true 1 100 2 k) =
      [1, 4, 5, 7, 8, 10, 11] := by decide
  rw [hlist, hvalues] at hpass
  exact ⟨hv, gen, hgen, hpass⟩

end SynthData.Strategy
