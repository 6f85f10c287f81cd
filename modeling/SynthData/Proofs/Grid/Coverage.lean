import SynthData.Proofs.Generator.Pass
import SynthData.Proofs.Grid.Generator
import SynthData.Proofs.Walk.Coverage

/-!
# Grids that are handed out in full

A walk that visits all indices hands out all points of a range of whole numbers,
each of them once, whatever is drawn (`supplies`).  The count of the points must
not be cut at the largest number of 64 bits.

The positions of a list are such a range, unless they are more than numbers of 64 bits
with a sign can tell apart (`Points.perm_range`).
-/
namespace SynthData

namespace Grid

variable (owner : String) {min max granularity : Int64} {g : Grid Walk}

/-- A running generator that loses no point in the present pass. -/
structure Walking (spec : Spec) (g : Grid Walk) : Prop extends g.Once spec where
  running : g.phase = .running
  drawing : ∃ rng, g.rng = some rng
  spans : g.walk.Spans spec.sampleCount

/-- A generator in the course of a pass takes a step of its walk. -/
theorem Walking.generate {spec : Spec} (hg : g.Walking spec) :
    ∃ rng, (machine owner Walk.kind).generate g =
      (.ok ((g.walk.next rng).1.map spec.valueAt),
        ⟨spec, (g.walk.next rng).2.1, some (g.walk.next rng).2.2, .running⟩) := by
  obtain ⟨spec', walk, rng, phase⟩ := g
  obtain rfl : spec' = spec := hg.spec_eq
  obtain ⟨rng, rfl⟩ : ∃ rng', rng = some rng' := hg.drawing
  obtain rfl : phase = .running := hg.running
  exact ⟨rng, rfl⟩

/-- **All points that are pending are handed out.** -/
theorem machine_empties (hv : (Spec.long min max granularity).validate = .ok ())
    (hcount : ∀ i, (Spec.long min max granularity).HasPoint i →
      i < (Spec.long min max granularity).sampleCount) :
    (machine owner Walk.kind).Empties (Walking (.long min max granularity)) Pending where
  generate := by
    intro g hg
    obtain ⟨rng, hgenerate⟩ := hg.generate owner
    have honce : Grid.Once _ ((machine owner Walk.kind).generate g).2 :=
      (machine_spends hv).generate g hg.toOnce
    rw [hgenerate] at honce ⊢
    exact ⟨honce, rfl, ⟨_, rfl⟩, Walk.next_spans hg.spans rng⟩
  answers := by
    intro g hg
    obtain ⟨rng, hgenerate⟩ := hg.generate owner
    exact ⟨_, by rw [hgenerate]⟩
  spent := fun g n hg h => (machine_spends hv).spent g n hg.toOnce h
  generate_pending := fun g n hg h => (machine_spends hv).generate_pending g n hg.toOnce h
  kept := by
    rintro g n hg ⟨i, hi, hpoint, rfl⟩
    obtain ⟨rng, hgenerate⟩ := hg.generate owner
    rw [hg.spec_eq] at hpoint ⊢
    obtain ⟨j, hj, h⟩ :=
      Walk.next_spares (hg.visits hg.running) hg.spans rng i (hcount i hpoint) hi
    rw [hgenerate]
    refine ⟨_, by rw [hj]; rfl, h.imp (congrArg _) fun hi => ⟨i, hi, hpoint, rfl⟩⟩

theorem pending_finite (hcount : ∀ i, g.spec.HasPoint i → i < g.spec.sampleCount) :
    {n | g.Pending n}.Finite := by
  refine ((Finset.range g.spec.sampleCount).finite_toSet.image g.spec.valueAt).subset ?_
  rintro n ⟨i, -, hpoint, rfl⟩
  exact ⟨i, by simpa using hcount i hpoint, rfl⟩

/-- The numbers are the points of a range, each of them once. -/
structure Points (spec : Spec) (numbers : List Number) : Prop where
  nodup : numbers.Nodup
  mem_iff : ∀ n, n ∈ numbers ↔ ∃ i < spec.sampleCount, n = spec.valueAt i

theorem Points.of_perm {spec : Spec} {order : List Number}
    (h : ∃ numbers, Points spec numbers ∧ order.Perm numbers) : Points spec order := by
  obtain ⟨numbers, hnumbers, hperm⟩ := h
  exact ⟨hperm.nodup_iff.mpr hnumbers.nodup,
    fun n => hperm.mem_iff.trans (hnumbers.mem_iff n)⟩

/-- A generator in the course of a pass that will begin others like it. -/
structure Passing (spec : Spec) (g : Grid Walk) : Prop extends g.Walking spec where
  full : g.walk.Full

/-- A pass that has just begun. -/
theorem begun_delivers (hv : (Spec.long min max granularity).validate = .ok ())
    (hcount : ∀ i, (Spec.long min max granularity).HasPoint i →
      i < (Spec.long min max granularity).sampleCount)
    {walk : Walk} (hfits : walk.Fits (Spec.long min max granularity).sampleCount)
    (hfull : walk.Full) (rng : Rng) (streams : Streams) :
    let spec := Spec.long min max granularity
    (machine owner Walk.kind).Delivers (Passing spec) (Points spec)
      (.ok (), ⟨spec, walk.rewind spec, some rng, .running⟩, streams) := by
  intro spec
  have hbegun := Walk.visits_rewind hfits
  have hwalking : Walking spec ⟨spec, walk.rewind spec, some rng, .running⟩ :=
    { spec_eq := rfl
      fits := hbegun.fits
      visits := fun _ => hbegun
      once := Walk.once_rewind hfull.once spec
      running := rfl
      drawing := ⟨rng, rfl⟩
      spans := Walk.spans_rewind hfull spec }
  obtain ⟨numbers, hnumbers, hnodup, hmem⟩ :=
    (machine_empties owner hv hcount).handsOut hwalking (pending_finite hcount)
  refine ⟨rfl, ⟨hwalking, hfull.rewind spec⟩, numbers, ⟨hnodup, fun n => (hmem n).trans ⟨?_, ?_⟩⟩,
    hnumbers⟩
  · rintro ⟨i, -, hpoint, rfl⟩
    exact ⟨i, hcount i hpoint, rfl⟩
  · rintro ⟨i, hi, rfl⟩
    exact ⟨i, Walk.pending_rewind hfull hi, Spec.hasPoint_of_lt hv hi, rfl⟩

/-- **Every pass over a grid hands out each of its points once.** -/
theorem supplies (hv : (Spec.long min max granularity).validate = .ok ())
    (hcount : ∀ i, (Spec.long min max granularity).HasPoint i →
      i < (Spec.long min max granularity).sampleCount)
    {walk : Walk} (hfits : walk.Fits (Spec.long min max granularity).sampleCount)
    (hfull : walk.Full) (context : Context) :
    let spec := Spec.long min max granularity
    (machine owner Walk.kind).Supplies context (· = .new spec walk) (Passing spec)
      (Points spec) where
  init := by
    rintro _ streams rfl
    obtain ⟨rng, streams', hresult⟩ : ∃ rng streams',
        (machine owner Walk.kind).init context (.new (.long min max granularity) walk) streams =
          (.ok (), ⟨.long min max granularity, walk.rewind (.long min max granularity), some rng,
            .running⟩, streams') := by
      refine ⟨(streams.issue context).1, (streams.issue context).2, ?_⟩
      simp only [machine, init, new, Phase.requireCreated, hv]
      rfl
    rw [hresult]
    exact begun_delivers owner hv hcount hfits hfull rng streams'
  generate := by
    intro g hg
    have hwalking := (machine_empties owner hv hcount).generate g hg.toWalking
    obtain ⟨rng, hgenerate⟩ := hg.generate owner
    rw [hgenerate] at hwalking ⊢
    exact ⟨hwalking, hg.full.next rng⟩
  reset := by
    rintro ⟨spec, walk, rng, phase⟩ streams hg
    obtain rfl : spec = .long min max granularity := hg.spec_eq
    obtain rfl : phase = .running := hg.running
    obtain ⟨rng, rfl⟩ : ∃ rng', rng = some rng' := hg.drawing
    exact begun_delivers owner hv hcount hg.fits hg.full rng streams

end Grid

/-! ## Positions of a list -/

namespace Spec

variable {n : Nat}

theorem toInt_last (hn : n ≤ 2 ^ 63) : (Int64.ofNat (n - 1)).toInt = (n - 1 : Nat) :=
  Int64.toInt_ofNat_of_lt (by omega)

theorem validate_indices (hn : n ≤ 2 ^ 63) : (indices n).validate = .ok () :=
  validate_long.mpr ⟨by rw [toInt_last hn]; exact Int.natCast_nonneg _, by decide⟩

theorem hasPoint_indices (hn : n ≤ 2 ^ 63) (hpos : 0 < n) {i : Nat} :
    (indices n).HasPoint i ↔ i < n := by
  show (0 : Int64).toInt + i * (1 : Int64).toInt ≤ (Int64.ofNat (n - 1)).toInt ↔ i < n
  rw [toInt_last hn]
  show (0 : Int) + i * 1 ≤ (n - 1 : Nat) ↔ i < n
  omega

theorem sampleCount_indices (hn : n ≤ 2 ^ 63) (hpos : 0 < n) : (indices n).sampleCount = n := by
  show Nat.min (((Int64.ofNat (n - 1)).toInt - (0 : Int64).toInt).toNat /
    (1 : Int64).toInt.toNat.max 1 + 1) maxWord = n
  have hspan : (((n - 1 : Nat) : Int) - (0 : Int64).toInt).toNat = n - 1 := by
    show (((n - 1 : Nat) : Int) - 0).toNat = n - 1
    omega
  have hunit : (1 : Int64).toInt.toNat.max 1 = 1 := by decide
  rw [toInt_last hn, hspan, hunit, Nat.div_one, Nat.sub_add_cancel hpos]
  exact Nat.min_eq_left (hn.trans (by decide))

/-- The count of the positions of a list is not cut. -/
theorem lt_sampleCount_indices (hn : n ≤ 2 ^ 63) (hpos : 0 < n) {i : Nat}
    (hi : (indices n).HasPoint i) : i < (indices n).sampleCount := by
  rw [sampleCount_indices hn hpos]
  exact (hasPoint_indices hn hpos).mp hi

theorem toIndex_valueAt {i : Nat} (hn : n ≤ 2 ^ 63) (hi : i < n) :
    ((indices n).valueAt i).toIndex = i := by
  obtain ⟨v, hv, hint⟩ := valueAt_long (by decide) ((hasPoint_indices hn (by omega)).mpr hi)
  rw [indices, hv]
  show v.toInt.toNat = i
  rw [hint]
  show ((0 : Int) + i * 1).toNat = i
  omega

end Spec

/-- **The points of the positions of a list** are the positions, in some order. -/
theorem Grid.Points.perm_range {n : Nat} (hn : n ≤ 2 ^ 63) (hpos : 0 < n) {order : List Number}
    (h : Points (.indices n) order) : (order.map Number.toIndex).Perm (List.range n) := by
  have hpoint (m : Number) : m ∈ order ↔ ∃ i < n, m = (Spec.indices n).valueAt i := by
    rw [h.mem_iff, Spec.sampleCount_indices hn hpos]
  refine (List.perm_ext_iff_of_nodup (h.nodup.map_on ?_) List.nodup_range).mpr fun i => ?_
  · intro a ha b hb heq
    obtain ⟨i, hi, rfl⟩ := (hpoint a).mp ha
    obtain ⟨j, hj, rfl⟩ := (hpoint b).mp hb
    rw [Spec.toIndex_valueAt hn hi, Spec.toIndex_valueAt hn hj] at heq
    rw [heq]
  · rw [List.mem_map, List.mem_range]
    refine ⟨?_, fun hi => ⟨_, (hpoint _).mpr ⟨i, hi, rfl⟩, Spec.toIndex_valueAt hn hi⟩⟩
    rintro ⟨a, ha, rfl⟩
    obtain ⟨i, hi, rfl⟩ := (hpoint a).mp ha
    rwa [Spec.toIndex_valueAt hn hi]

end SynthData
