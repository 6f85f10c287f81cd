import SynthData.Proofs.Guarded.Machines
import SynthData.Proofs.Guarded.Walks
import SynthData.Proofs.Strategy.Numbers

/-!
# Number generators in words

The generators of numbers, each with the computations of its calls in words.  Over
a valid range of whole numbers none of them is ever broken off
(`NumberGen.guarded_follows`).  Their invariants say that a walk over a grid is in
the course of a pass, and that a table of weights has an entry for each point.
-/
namespace SynthData

variable {min max granularity : Int64}

/-! ## Grid points in the order of a walk -/

namespace Grid

/-- Checks the range, takes a random stream and begins a pass. -/
def guardedInit (owner : String) (context : Context) (g : Grid Walk) (streams : Streams) :
    Guarded (Except Fault Unit × Grid Walk × Streams) :=
  match g.phase.requireCreated owner, g.spec.validate with
  | .error fault, _ => return (.error fault, g, streams)
  | .ok _, .error fault => return (.error fault, g, streams)
  | .ok _, .ok _ => do
    let (rng, streams) := streams.issue context
    let walk ← g.walk.guardedRewind g.spec
    return (.ok (), ⟨g.spec, walk, some rng, .running⟩, streams)

/-- The point at the next index of the walk. -/
def guardedEmit (g : Grid Walk) : Guarded (Option Number × Grid Walk) :=
  match g.rng with
  | none => return (none, g)
  | some rng => do
    let (index, walk, rng) ← g.walk.guardedNext rng
    let g := { g with walk := walk, rng := some rng }
    match index with
    | none => return (none, g)
    | some i =>
      let number ← g.spec.guardedValueAt i
      return (some number, g)

/-- The generator of the grid points of a range. -/
def guarded (owner : String) : GuardedMachine (Grid Walk) Number where
  init := guardedInit owner
  generate g :=
    match g.phase.requireRunning owner with
    | .error fault => return (.error fault, g)
    | .ok _ => do
      let (number, g) ← g.guardedEmit
      return (.ok number, g)
  reset g streams :=
    match g.phase with
    | .created => do
      let (context, streams) := streams.defaultContext
      guardedInit owner context g streams
    | .closed => return (.error (.alreadyClosed owner), g, streams)
    | .running => do
      let walk ← g.walk.guardedRewind g.spec
      return (.ok (), { g with walk := walk }, streams)
  close g := { g with phase := .closed }

/-- The walk is in the course of a pass while the generator runs, and its numbers fit. -/
structure Safe (spec : Spec) (g : Grid Walk) : Prop extends g.On spec where
  sized : g.walk.Sized

theorem Safe.begins {g g' : Grid Walk} {answer : Except Fault Unit}
    (hg : g.Safe (.long min max granularity)) (h : g.Begins answer g') :
    g'.Safe (.long min max granularity) := by
  refine ⟨hg.toOn.begins h, ?_⟩
  cases h with
  | refused _ => exact hg.sized
  | begun rng => exact hg.spec_eq ▸ Walk.sized_rewind hg.sized

theorem Safe.emits (hv : (Spec.long min max granularity).validate = .ok ()) {g g' : Grid Walk}
    {answer : Except Fault (Option Number)} (hg : g.Safe (.long min max granularity))
    (h : g.Emits answer g') : g'.Safe (.long min max granularity) := by
  refine ⟨hg.toOn.emits hv h, ?_⟩
  cases h with
  | refused _ => exact hg.sized
  | undrawn => exact hg.sized
  | stepped rng running => exact Walk.sized_next hg.sized rng

theorem machine_keeps_safe (owner : String)
    (hv : (Spec.long min max granularity).validate = .ok ()) :
    (machine owner Walk.kind).Keeps (Safe (.long min max granularity)) where
  init := fun context _ streams hg => hg.begins (init_begins _ _ context streams)
  generate := fun _ hg => hg.emits hv (generate_emits _ _)
  reset := fun _ streams hg => hg.begins (reset_begins _ _ streams)
  close := fun _ hg => ⟨⟨hg.spec_eq, hg.fits, nofun⟩, hg.sized⟩

theorem guardedInit_eq (owner : String) (context : Context) {g : Grid Walk}
    (hg : g.spec = .long min max granularity) (streams : Streams) :
    guardedInit owner context g streams = .ok (init owner Walk.kind context g streams) := by
  unfold guardedInit init
  cases g.phase.requireCreated owner with
  | error fault => rfl
  | ok _ =>
    cases hv : g.spec.validate with
    | error fault => rfl
    | ok _ =>
      rw [hg] at hv
      simp [hg, Walk.guardedRewind_eq hv, Walk.kind]

/-- **A running walk is not broken off**, nor is the point at its index. -/
theorem guardedEmit_eq (hv : (Spec.long min max granularity).validate = .ok ()) {g : Grid Walk}
    (hg : g.Safe (.long min max granularity)) (running : g.phase = .running) :
    g.guardedEmit = .ok (g.emit Walk.kind) := by
  obtain ⟨spec, walk, rng, phase⟩ := g
  obtain rfl : spec = .long min max granularity := hg.spec_eq
  have hvisits := hg.visits running
  cases rng with
  | none => rfl
  | some rng =>
    have hpoint := (Walk.next_visits hv hvisits rng).2
    simp only [guardedEmit, emit, Walk.kind, Walk.guardedNext_eq hv hvisits hg.sized,
      Guarded.ok_bind]
    rcases hnext : walk.next rng with ⟨_ | i, walk', rng'⟩
    · rfl
    · have hi := Spec.lt_of_hasPoint hv (hpoint i (by rw [hnext]; rfl))
      simp [Spec.guardedValueAt_eq hi]

theorem guarded_follows (owner : String)
    (hv : (Spec.long min max granularity).validate = .ok ()) :
    (guarded owner).Follows (machine owner Walk.kind) (Safe (.long min max granularity)) where
  toKeeps := machine_keeps_safe owner hv
  init_eq := fun context _ streams hg => guardedInit_eq owner context hg.spec_eq streams
  generate_eq := by
    intro g hg
    cases hphase : g.phase with
    | created | closed => simp [guarded, machine, hphase, Phase.requireRunning]
    | running =>
      simp [guarded, machine, hphase, Phase.requireRunning, guardedEmit_eq hv hg hphase]
  reset_eq := by
    intro g streams hg
    simp only [guarded, machine]
    cases g.phase with
    | created => exact guardedInit_eq owner _ hg.spec_eq _
    | closed => rfl
    | running => simp [hg.spec_eq, Walk.guardedRewind_eq hv, Walk.kind]
  close_eq := fun _ => rfl

end Grid

/-! ## Grid points by weight -/

namespace Weighted

/-- The weights of the first `count` grid points. -/
def guardedWeights (spec : Spec) (weight : WeightFunction) (count : Nat) : Guarded (List Float) :=
  (List.range count).mapM fun i => (spec.guardedValueAt i).map fun n => weight n.toFloat

/-- Checks the range, weighs its points and takes a random stream. -/
def guardedInit (context : Context) (w : Weighted) (streams : Streams) :
    Guarded (Except Fault Unit × Weighted × Streams) :=
  match w.phase.requireCreated owner, w.spec.validate with
  | .error fault, _ => return (.error fault, w, streams)
  | .ok _, .error fault => return (.error fault, w, streams)
  | .ok _, .ok _ => do
    let count ← w.spec.guardedCount
    if maxPoints < count then
      return (.error (.tableTooLarge w.spec.min w.spec.max w.spec.granularity count maxPoints), w,
        streams)
    else
      let weights ← guardedWeights w.spec w.weight count
      match weightTable weights with
      | .error fault => return (.error fault, w, streams)
      | .ok table =>
        let (rng, streams) := streams.issue context
        return (.ok (), ⟨w.spec, w.weight, table, count, some rng, .running⟩, streams)

/-- A point by its weight. -/
def guardedEmit (w : Weighted) : Guarded (Option Number × Weighted) :=
  match w.rng with
  | none => return (none, w)
  | some rng =>
    match w.table with
    | some table => do
      let (draw, rng) := rng.unit
      let number ← w.spec.guardedValueAt (Weighing.lowerBound table draw)
      return (some number, { w with rng := some rng })
    | none => do
      let (index, rng) ← rng.drawFrom 0 w.count
      let number ← w.spec.guardedValueAt index
      return (some number, { w with rng := some rng })

/-- The generator of grid points by weight. -/
def guarded : GuardedMachine Weighted Number where
  init := guardedInit
  generate w :=
    match w.phase.requireRunning owner with
    | .error fault => return (.error fault, w)
    | .ok _ => do
      let (number, w) ← w.guardedEmit
      return (.ok number, w)
  reset w streams :=
    match w.phase with
    | .created => do
      let (context, streams) := streams.defaultContext
      guardedInit context w streams
    | .closed => return (.error (.alreadyClosed owner), w, streams)
    | .running => return (.ok (), w, streams)
  close w := { w with table := none, phase := .closed }

theorem guardedWeights_eq (weight : WeightFunction) :
    guardedWeights (.long min max granularity) weight
        (Spec.long min max granularity).sampleCount =
      .ok (weights (.long min max granularity) weight
        (Spec.long min max granularity).sampleCount) := by
  have hn : (Spec.long min max granularity).sampleCount < 2 ^ 64 := Spec.sampleCount_long_lt
  refine Guarded.mapM_ok fun i hi => ?_
  rw [Spec.guardedValueAt_eq (Nat.lt_trans (List.mem_range.mp hi) hn)]
  rfl

theorem guardedInit_eq (context : Context) {w : Weighted} (hw : w.spec = .long min max granularity)
    (streams : Streams) : guardedInit context w streams = .ok (w.init context streams) := by
  obtain ⟨spec, weight, table, count, rng, phase⟩ := w
  obtain rfl : spec = .long min max granularity := hw
  simp only [guardedInit, init]
  cases phase.requireCreated owner with
  | error fault => rfl
  | ok _ =>
    cases hv : (Spec.long min max granularity).validate with
    | error fault => rfl
    | ok _ =>
      simp only [Spec.guardedCount_eq hv, guardedWeights_eq, Guarded.ok_bind]
      split
      · rfl
      · cases weightTable _ with
        | error fault => rfl
        | ok table => rfl

/-- **A point is drawn without being broken off**: the table of a running generator, or the grid
if there is no table, has a point to draw. -/
theorem guardedEmit_eq {w : Weighted} (hw : w.On (.long min max granularity))
    (running : w.phase = .running) : w.guardedEmit = .ok w.emit := by
  have hn : (Spec.long min max granularity).sampleCount < 2 ^ 64 := Spec.sampleCount_long_lt
  have hpos := (Spec.long min max granularity).sampleCount_pos
  have hcount := hw.count_eq running
  have hsize := hw.table_size running
  obtain ⟨spec, weight, table, count, rng, phase⟩ := w
  obtain rfl : spec = .long min max granularity := hw.spec_eq
  obtain rfl : count = (Spec.long min max granularity).sampleCount := hcount
  cases rng with
  | none => rfl
  | some rng =>
    cases table with
    | some table =>
      have htable : table.size = (Spec.long min max granularity).sampleCount := hsize table rfl
      have hbound := Weighing.lowerBound_lt (show 0 < table.size by omega) rng.unit.1
      simp [guardedEmit, emit, Spec.guardedValueAt_eq
        (show Weighing.lowerBound table rng.unit.1 < 2 ^ 64 by omega)]
    | none =>
      have hbelow := rng.below_lt hpos
      simp [guardedEmit, emit, rng.drawFrom_zero hpos,
        Spec.guardedValueAt_eq (Nat.lt_trans hbelow hn)]

theorem guarded_follows (hv : (Spec.long min max granularity).validate = .ok ()) :
    guarded.Follows machine (On (.long min max granularity)) where
  toKeeps := (machine_yields hv).toKeeps
  init_eq := fun context _ streams hw => guardedInit_eq context hw.spec_eq streams
  generate_eq := by
    intro w hw
    cases hphase : w.phase with
    | created | closed => simp [guarded, machine, hphase, Phase.requireRunning]
    | running => simp [guarded, machine, hphase, Phase.requireRunning, guardedEmit_eq hw hphase]
  reset_eq := by
    intro w streams hw
    simp only [guarded, machine]
    cases w.phase with
    | created => exact guardedInit_eq _ hw.spec_eq _
    | closed => rfl
    | running => rfl
  close_eq := fun _ => rfl

end Weighted

/-! ## Numbers by an inverse distribution function -/

namespace Inverse

/-- The grid point at or below a number that is brought into the range first. -/
def guardedSnap (spec : Spec) (x : Float) : Guarded Number := do
  let min := spec.min.toFloat
  let max := spec.max.toFloat
  let x := if x < min then min else x
  let x := if max < x then max else x
  match ← spec.guardedFloorIndex x with
  | some index => spec.guardedValueAt index
  | none => return spec.min

/-- A number of the distribution. -/
def guardedEmit (g : Inverse) : Guarded (Option Number × Inverse) :=
  match g.rng with
  | none => return (none, g)
  | some rng => do
    let (draw, rng) := rng.unit
    let number ← guardedSnap g.spec (g.function.inverse (g.minProbability + draw * g.mass))
    return (some number, { g with rng := some rng })

/-- The generator of numbers by an inverse distribution function.  Its initialization computes with
doubles only. -/
def guarded : GuardedMachine Inverse Number where
  init context g streams := return g.init context streams
  generate g :=
    match g.phase.requireRunning owner with
    | .error fault => return (.error fault, g)
    | .ok _ => do
      let (number, g) ← g.guardedEmit
      return (.ok number, g)
  reset g streams := return machine.reset g streams
  close g := { g with phase := .closed }

theorem guardedSnap_eq (hv : (Spec.long min max granularity).validate = .ok ()) (x : Float) :
    guardedSnap (.long min max granularity) x = .ok (snap (.long min max granularity) x) := by
  have hn : (Spec.long min max granularity).sampleCount < 2 ^ 64 := Spec.sampleCount_long_lt
  simp only [guardedSnap, snap, Spec.guardedFloorIndex_eq hv, Guarded.ok_bind]
  generalize hfloor : Spec.floorIndex? _ _ = found
  cases found with
  | none => rfl
  | some index =>
    have hi : index < 2 ^ 64 := Nat.lt_trans (Spec.floorIndex?_lt hfloor) hn
    exact Spec.guardedValueAt_eq hi

theorem guarded_follows (hv : (Spec.long min max granularity).validate = .ok ()) :
    guarded.Follows machine (On (.long min max granularity)) where
  toKeeps := (machine_yields hv).toKeeps
  init_eq := fun _ _ _ _ => rfl
  generate_eq := by
    rintro ⟨spec, function, minProbability, mass, rng, phase⟩ hg
    obtain rfl : spec = .long min max granularity := hg
    cases phase with
    | created | closed => rfl
    | running =>
      cases rng with
      | none => rfl
      | some rng =>
        simp [guarded, machine, Phase.requireRunning, guardedEmit, emit, guardedSnap_eq hv]
  reset_eq := fun _ _ _ => rfl
  close_eq := fun _ => rfl

end Inverse

/-! ## Generators of all kinds -/

namespace NumberGen

open GuardedMachine

/-- The calls of a pool that is filled from a grid. -/
def guardedExpand (unique : Bool) (quota : Float) :
    GuardedMachine (Expand (Grid Walk) Number) Number :=
  Expand.guarded (Grid.guarded stepOwner) unique quota

/-- The calls of a weighted grid. -/
def guardedWeighted (owner : String) : GuardedMachine (Wrapped Weighted) Number :=
  Mapped.guarded owner Weighted.guarded id

/-- The calls of number generators of any kind.  Given numbers are handed out without any
arithmetic on a range. -/
def guarded : GuardedMachine NumberGen Number where
  init context g streams :=
    match g with
    | grid owner g => ((Grid.guarded owner).init context g streams).map (leftWith (grid owner))
    | expand unique quota e =>
      ((guardedExpand unique quota).init context e streams).map (leftWith (expand unique quota))
    | weighted owner w =>
      ((guardedWeighted owner).init context w streams).map (leftWith (weighted owner))
    | inverse g => (Inverse.guarded.init context g streams).map (leftWith inverse)
    | listed l => return leftWith listed (Listed.machine.init context l streams)
  generate g :=
    match g with
    | grid owner g => ((Grid.guarded owner).generate g).map (left (grid owner))
    | expand unique quota e =>
      ((guardedExpand unique quota).generate e).map (left (expand unique quota))
    | weighted owner w => ((guardedWeighted owner).generate w).map (left (weighted owner))
    | inverse g => (Inverse.guarded.generate g).map (left inverse)
    | listed l => return left listed (Listed.machine.generate l)
  reset g streams :=
    match g with
    | grid owner g => ((Grid.guarded owner).reset g streams).map (leftWith (grid owner))
    | expand unique quota e =>
      ((guardedExpand unique quota).reset e streams).map (leftWith (expand unique quota))
    | weighted owner w =>
      ((guardedWeighted owner).reset w streams).map (leftWith (weighted owner))
    | inverse g => (Inverse.guarded.reset g streams).map (leftWith inverse)
    | listed l => return leftWith listed (Listed.machine.reset l streams)
  close
    | grid owner g => grid owner ((Grid.guarded owner).close g)
    | expand unique quota e => expand unique quota ((guardedExpand unique quota).close e)
    | weighted owner w => weighted owner ((guardedWeighted owner).close w)
    | inverse g => inverse (Inverse.guarded.close g)
    | listed l => listed (Listed.machine.close l)

/-- The computations of a generator over a range fit their words. -/
def Safe (spec : Spec) : NumberGen → Prop
  | grid _ g => g.Safe spec
  | expand _ _ e => Expand.Sound (Grid.Safe spec) (fun _ => True) e.wrapped.source e.pool
  | weighted _ w => w.source.On spec
  | inverse g => g.On spec
  | listed _ => True

section

variable (hv : (Spec.long min max granularity).validate = .ok ())

include hv

theorem guardedExpand_follows (unique : Bool) (quota : Float) :
    (guardedExpand unique quota).Follows (expandMachine unique quota)
      (fun e => Expand.Sound (Grid.Safe (.long min max granularity)) (fun _ => True)
        e.wrapped.source e.pool) :=
  Expand.guarded_follows (Grid.guarded_follows stepOwner hv) unique quota

theorem guardedWeighted_follows (owner : String) :
    (guardedWeighted owner).Follows (weightedMachine owner)
      (fun w => w.source.On (.long min max granularity)) :=
  Mapped.guarded_follows (Weighted.guarded_follows hv) owner id

/-- **No call of a number generator is broken off.** -/
theorem guarded_follows : guarded.Follows machine (Safe (.long min max granularity)) := by
  refine .of_covered (fun g => by cases g <;> rfl) fun g _ => ?_
  cases g with
  | grid owner g =>
    exact ⟨_, _, _, g, rfl, embeds_grid owner, Grid.guarded owner,
      ⟨fun _ _ _ => rfl, fun _ => rfl, fun _ _ => rfl⟩, Grid.guarded_follows owner hv⟩
  | expand unique quota e =>
    exact ⟨_, _, _, e, rfl, embeds_expand unique quota, guardedExpand unique quota,
      ⟨fun _ _ _ => rfl, fun _ => rfl, fun _ _ => rfl⟩, guardedExpand_follows hv unique quota⟩
  | weighted owner w =>
    exact ⟨_, _, _, w, rfl, embeds_weighted owner, guardedWeighted owner,
      ⟨fun _ _ _ => rfl, fun _ => rfl, fun _ _ => rfl⟩, guardedWeighted_follows hv owner⟩
  | inverse g =>
    exact ⟨_, _, _, g, rfl, embeds_inverse, Inverse.guarded,
      ⟨fun _ _ _ => rfl, fun _ => rfl, fun _ _ => rfl⟩, Inverse.guarded_follows hv⟩
  | listed l =>
    exact ⟨_, _, _, l, rfl, embeds_listed, ofMachine Listed.machine,
      ⟨fun _ _ _ => rfl, fun _ => rfl, fun _ _ => rfl⟩, ofMachine_follows Listed.machine⟩

end

end NumberGen
end SynthData
