import SynthData.Cumulative.Generator
import SynthData.Proofs.Generator.Run
import SynthData.Proofs.Grid.Points
import SynthData.Weight.Generator

/-!
# Points by weight and by inverse distribution functions

Nothing is known here of what the weight and distribution functions compute:
their results may be infinite or no numbers at all.  A table of weights has an
entry for each weight whatever they are (`cumulativeTable_size`), and the search
stays within the table (`lowerBound_lt`); a number that is no number is moved to
the least point.  So both kinds of generators hand out points of their grids.
-/
namespace SynthData

/-! ## Tables -/

namespace Weighing

variable {α : Type} [Weighing α]

theorem runningSums_size {sums sums' : Array α} {total total' : α} {ws : List α}
    (h : runningSums sums total ws = .ok (sums', total')) :
    sums'.size = sums.size + ws.length := by
  induction ws generalizing sums total with
  | nil =>
    obtain ⟨rfl, -⟩ := Prod.mk.inj (Except.ok.inj h)
    rfl
  | cons w ws ih =>
    unfold runningSums at h
    split at h
    · rw [ih h, Array.size_push, List.length_cons]
      omega
    · cases h

/-- A table has an entry for each weight. -/
theorem cumulativeTable_size {weights : List α} {table : Array α}
    (h : cumulativeTable weights = .ok (some table)) : table.size = weights.length := by
  unfold cumulativeTable at h
  cases hsums : runningSums #[] zero weights with
  | error bad => simp [hsums] at h
  | ok result =>
    obtain ⟨sums, total⟩ := result
    simp only [hsums] at h
    split at h
    · cases h
    · obtain rfl := Option.some.inj (Except.ok.inj h)
      have hsize := runningSums_size hsums
      simpa using hsize

/-- The search stays within the table. -/
theorem lowerBound_lt {table : Array α} (h : 0 < table.size) (draw : α) :
    lowerBound table draw < table.size :=
  Nat.lt_of_le_of_lt (Nat.min_le_right _ _) (by omega)

end Weighing

theorem weightTable_size {weights : List Float} {table : Array Float}
    (h : weightTable weights = .ok (some table)) : table.size = weights.length := by
  unfold weightTable at h
  split at h
  · cases h
  · rename_i table' htable
    obtain rfl := Except.ok.inj h
    exact Weighing.cumulativeTable_size htable

/-! ## Points by weight -/

namespace Weighted

/-- The range stays, and the table of a running generator has an entry for each
point. -/
structure On (spec : Spec) (w : Weighted) : Prop where
  spec_eq : w.spec = spec
  count_eq : w.phase = .running → w.count = spec.sampleCount
  table_size : w.phase = .running → ∀ table ∈ w.table, table.size = spec.sampleCount

theorem on_new (spec : Spec) (weight : WeightFunction) : (Weighted.new spec weight).On spec :=
  ⟨rfl, nofun, nofun⟩

theorem init_on {spec : Spec} (context : Context) {w : Weighted} (streams : Streams)
    (hw : w.On spec) : (w.init context streams).2.1.On spec := by
  unfold init
  split
  · exact hw
  · split
    · exact hw
    · dsimp only
      split
      · exact hw
      · split
        · exact hw
        · rename_i table htable
          obtain ⟨rfl, -, -⟩ := hw
          refine ⟨rfl, fun _ => rfl, fun _ table' htable' => ?_⟩
          obtain rfl : table = some table' := htable'
          rw [weightTable_size htable, weights, List.length_map, List.length_range]

theorem emit_on {spec : Spec} {w : Weighted} (hw : w.On spec) : w.emit.2.On spec := by
  unfold emit
  split
  · exact hw
  · split
    · exact ⟨hw.spec_eq, hw.count_eq, hw.table_size⟩
    · exact ⟨hw.spec_eq, hw.count_eq, hw.table_size⟩

theorem emit_lt {spec : Spec} {w : Weighted} (hw : w.On spec) (running : w.phase = .running) :
    ∀ n ∈ w.emit.1, ∃ i, i < spec.sampleCount ∧ n = spec.valueAt i := by
  intro n hn
  obtain ⟨rfl, hcount, hsize⟩ := hw
  have hpos := w.spec.sampleCount_pos
  unfold emit at hn
  split at hn
  · cases hn
  · rename_i rng _
    split at hn
    · -- the table has an entry for each point
      rename_i table htable
      obtain rfl := Option.some.inj hn
      have htable_size := hsize running table htable
      refine ⟨_, ?_, rfl⟩
      rw [← htable_size]
      exact Weighing.lowerBound_lt (by omega) _
    · obtain rfl := Option.some.inj hn
      have hcount_eq := hcount running
      have hbelow := rng.below_lt (show 0 < w.count by omega)
      exact ⟨_, by omega, rfl⟩

/-- **Every number that is drawn by weight is a point of the grid.** -/
theorem machine_yields {spec : Spec} (hv : spec.validate = .ok ()) :
    machine.Yields (On spec) (fun n => ∃ i, spec.HasPoint i ∧ n = spec.valueAt i) where
  init := fun context _ streams hw => init_on context streams hw
  generate := by
    intro w hw
    simp only [machine]
    split
    · exact hw
    · exact emit_on hw
  reset := by
    intro w streams hw
    simp only [machine]
    split
    · exact init_on _ _ hw
    · exact hw
    · exact hw
  close := fun _ hw => ⟨hw.spec_eq, nofun, nofun⟩
  good := by
    intro w n hw h
    cases hphase : w.phase with
    | created => simp [machine, hphase, Phase.requireRunning] at h
    | closed => simp [machine, hphase, Phase.requireRunning] at h
    | running =>
      simp only [machine, hphase, Phase.requireRunning] at h
      obtain ⟨i, hi, hvalue⟩ := emit_lt hw hphase n (Except.ok.inj h)
      exact ⟨i, Spec.hasPoint_of_lt hv hi, hvalue⟩

end Weighted

/-! ## Points by an inverse distribution function -/

namespace Inverse

/-- The range stays. -/
def On (spec : Spec) (g : Inverse) : Prop := g.spec = spec

/-- A number is moved to a point, whatever it is. -/
theorem snap_hasPoint {min max granularity : Int64}
    (hv : (Spec.long min max granularity).validate = .ok ()) (x : Float) :
    ∃ i, (Spec.long min max granularity).HasPoint i ∧
      snap (.long min max granularity) x = (Spec.long min max granularity).valueAt i := by
  unfold snap
  dsimp only
  split
  · rename_i index hindex
    exact ⟨index, Spec.hasPoint_of_lt hv (Spec.floorIndex?_lt hindex), rfl⟩
  · -- what is no number, or lies outside because of rounding, becomes the least point
    refine ⟨0, Spec.hasPoint_of_lt hv (Spec.sampleCount_pos _), ?_⟩
    exact (Spec.valueAt_zero hv).symm

theorem init_on {spec : Spec} (context : Context) {g : Inverse} (streams : Streams)
    (hg : g.On spec) : (g.init context streams).2.1.On spec := by
  unfold init
  split
  · exact hg
  · split
    · exact hg
    · dsimp only
      split
      · exact hg
      · exact hg

theorem emit_on {spec : Spec} {g : Inverse} (hg : g.On spec) : g.emit.2.On spec := by
  unfold emit
  split
  · exact hg
  · exact hg

/-- **Every number that an inverse function gives is moved to a point of the
grid.** -/
theorem machine_yields {min max granularity : Int64}
    (hv : (Spec.long min max granularity).validate = .ok ()) :
    machine.Yields (On (.long min max granularity))
      (fun n => ∃ i, (Spec.long min max granularity).HasPoint i ∧
        n = (Spec.long min max granularity).valueAt i) where
  init := fun context _ streams hg => init_on context streams hg
  generate := by
    intro g hg
    simp only [machine]
    split
    · exact hg
    · exact emit_on hg
  reset := by
    intro g streams hg
    simp only [machine]
    split
    · exact init_on _ _ hg
    · exact hg
    · exact hg
  close := fun _ hg => hg
  good := by
    intro g n hg h
    simp only [machine] at h
    split at h
    · cases h
    · obtain hn := Except.ok.inj h
      unfold emit at hn
      split at hn
      · cases hn
      · obtain rfl := Option.some.inj hn
        rw [show g.spec = _ from hg]
        exact snap_hasPoint hv _

end Inverse
end SynthData
