import SynthData.Grid.Generator
import SynthData.Proofs.Generator.Run
import SynthData.Proofs.Walk.Kinds

/-!
# Grid generators

A call of `init` or `reset` begins a pass or changes nothing (`Begins`), and a
call of `generate` takes one step of the walk or changes nothing (`Emits`).  From
these two the invariant `On` follows: the range stays, and the walk of a
running generator is in the course of a pass over its grid.

So every number comes from an index that has a point (`machine_yields`), and a
walk without repetitions uses each of its numbers up (`spread_spends`), if different
points are different numbers.
-/
namespace SynthData

namespace Grid

variable {owner : String} {g : Grid Walk}

/-! ## What the calls do -/

/-- The ways in which a pass can be asked for: it is refused, or it begins. -/
inductive Begins (g : Grid Walk) : Except Fault Unit → Grid Walk → Prop where
  | refused (fault : Fault) : Begins g (.error fault) g
  | begun (rng : Option Rng) :
    Begins g (.ok ()) ⟨g.spec, g.walk.rewind g.spec, rng, .running⟩

/-- The ways in which a number can be asked for: it is refused, there is no
stream to draw from, or the walk takes a step. -/
inductive Emits (g : Grid Walk) : Except Fault (Option Number) → Grid Walk → Prop where
  | refused (fault : Fault) : Emits g (.error fault) g
  | undrawn : Emits g (.ok none) g
  | stepped (rng : Rng) (running : g.phase = .running) :
    Emits g (.ok ((g.walk.next rng).1.map g.spec.valueAt))
      ⟨g.spec, (g.walk.next rng).2.1, some (g.walk.next rng).2.2, g.phase⟩

theorem init_begins (owner : String) (g : Grid Walk) (context : Context) (streams : Streams) :
    g.Begins (init owner Walk.kind context g streams).1
      (init owner Walk.kind context g streams).2.1 := by
  unfold init
  split
  · exact .refused _
  · split
    · exact .refused _
    · exact .begun _

theorem reset_begins (owner : String) (g : Grid Walk) (streams : Streams) :
    g.Begins ((machine owner Walk.kind).reset g streams).1
      ((machine owner Walk.kind).reset g streams).2.1 := by
  unfold machine
  dsimp only
  split
  · exact init_begins _ _ _ _
  · exact .refused _
  · rename_i hrunning
    exact hrunning ▸ .begun g.rng

theorem generate_emits (owner : String) (g : Grid Walk) :
    g.Emits ((machine owner Walk.kind).generate g).1
      ((machine owner Walk.kind).generate g).2 := by
  obtain ⟨spec, walk, rng, phase⟩ := g
  cases phase with
  | created => exact .refused _
  | closed => exact .refused _
  | running =>
    cases rng with
    | none => exact .undrawn
    | some rng => exact .stepped (g := ⟨spec, walk, some rng, .running⟩) rng rfl

theorem Begins.eq_of_error {fault : Fault} {g' : Grid Walk} (h : g.Begins (.error fault) g') :
    g' = g := by
  cases h
  rfl

/-- A number that is handed out is the value at the index of a step. -/
theorem Emits.eq_of_some {n : Number} {g' : Grid Walk} (h : g.Emits (.ok (some n)) g') :
    ∃ rng i, g.phase = .running ∧ i ∈ (g.walk.next rng).1 ∧ n = g.spec.valueAt i ∧
      g' = ⟨g.spec, (g.walk.next rng).2.1, some (g.walk.next rng).2.2, g.phase⟩ := by
  generalize hanswer : Except.ok (some n) = answer at h
  cases h with
  | refused _ => cases hanswer
  | undrawn => cases hanswer
  | stepped rng running =>
    obtain ⟨i, hi, hvalue⟩ := Option.map_eq_some_iff.mp (Except.ok.inj hanswer).symm
    exact ⟨rng, i, running, hi, hvalue.symm, rfl⟩

theorem machine_steady : (machine owner Walk.kind).Steady := by
  intro g streams fault h
  have hb := reset_begins owner g streams
  rw [h] at hb
  exact hb.eq_of_error

/-! ## The invariant -/

/-- The generator works on the grid of a range, with a walk that suits it, and
is in the course of a pass while it runs. -/
structure On (spec : Spec) (g : Grid Walk) : Prop where
  spec_eq : g.spec = spec
  fits : g.walk.Fits spec.sampleCount
  visits : g.phase = .running → g.walk.Visits spec

theorem on_new {spec : Spec} {w : Walk} (hw : w.Fits spec.sampleCount) :
    (Grid.new spec w).On spec :=
  ⟨rfl, hw, nofun⟩

theorem On.begins {spec : Spec} {g g' : Grid Walk} {answer : Except Fault Unit}
    (hg : g.On spec) (h : g.Begins answer g') : g'.On spec := by
  obtain ⟨rfl, hfits, hvisits⟩ := hg
  cases h with
  | refused _ => exact ⟨rfl, hfits, hvisits⟩
  | begun rng =>
    have hbegun := Walk.visits_rewind hfits
    exact ⟨rfl, hbegun.fits, fun _ => hbegun⟩

theorem On.emits {spec : Spec} (hv : spec.validate = .ok ()) {g g' : Grid Walk}
    {answer : Except Fault (Option Number)} (hg : g.On spec) (h : g.Emits answer g') :
    g'.On spec := by
  obtain ⟨rfl, hfits, hvisits⟩ := hg
  cases h with
  | refused _ => exact ⟨rfl, hfits, hvisits⟩
  | undrawn => exact ⟨rfl, hfits, hvisits⟩
  | stepped rng running =>
    have hstep := (Walk.next_visits hv (hvisits running) rng).1
    exact ⟨rfl, hstep.fits, fun _ => hstep⟩

theorem machine_keeps {spec : Spec} (hv : spec.validate = .ok ()) :
    (machine owner Walk.kind).Keeps (On spec) where
  init := fun context _ streams hg => hg.begins (init_begins _ _ context streams)
  generate := fun _ hg => hg.emits hv (generate_emits _ _)
  reset := fun _ streams hg => hg.begins (reset_begins _ _ streams)
  close := fun _ hg => ⟨hg.spec_eq, hg.fits, nofun⟩

/-- **Every number comes from an index that has a point.** -/
theorem machine_yields {spec : Spec} (hv : spec.validate = .ok ()) :
    (machine owner Walk.kind).Yields (On spec)
      (fun n => ∃ i, spec.HasPoint i ∧ n = spec.valueAt i) where
  toKeeps := machine_keeps hv
  good := by
    intro g n hg h
    have he := generate_emits owner g
    rw [h] at he
    obtain ⟨rfl, -, hvisits⟩ := hg
    obtain ⟨rng, i, running, hi, hvalue, -⟩ := he.eq_of_some
    exact ⟨i, (Walk.next_visits hv (hvisits running) rng).2 i hi, hvalue⟩

/-! ## Walks without repetitions -/

/-- The invariant of a generator whose walk visits no index twice. -/
structure Once (spec : Spec) (g : Grid Walk) : Prop extends g.On spec where
  once : g.walk.Once

/-- The numbers that such a generator may still hand out in the present pass. -/
def Pending (g : Grid Walk) (n : Number) : Prop :=
  ∃ i, g.walk.Pending i ∧ g.spec.HasPoint i ∧ n = g.spec.valueAt i

theorem Once.begins {spec : Spec} {g g' : Grid Walk} {answer : Except Fault Unit}
    (hg : g.Once spec) (h : g.Begins answer g') : g'.Once spec := by
  refine ⟨hg.toOn.begins h, ?_⟩
  cases h with
  | refused _ => exact hg.once
  | begun rng => exact Walk.once_rewind hg.once g.spec

theorem Once.emits {spec : Spec} (hv : spec.validate = .ok ()) {g g' : Grid Walk}
    {answer : Except Fault (Option Number)} (hg : g.Once spec) (h : g.Emits answer g') :
    g'.Once spec := by
  refine ⟨hg.toOn.emits hv h, ?_⟩
  cases h with
  | refused _ => exact hg.once
  | undrawn => exact hg.once
  | stepped rng running => exact Walk.once_next hg.once rng

/-- The invariant of a generator that uses its numbers up: its walk confuses no indices. -/
structure Spread (spec : Spec) (g : Grid Walk) : Prop extends g.Once spec where
  tellsApart : g.walk.TellsApart spec

section Spread

variable {spec : Spec}

theorem Spread.begins {g' : Grid Walk} {answer : Except Fault Unit} (hg : g.Spread spec)
    (h : g.Begins answer g') : g'.Spread spec := by
  refine ⟨hg.toOnce.begins h, ?_⟩
  cases h with
  | refused _ => exact hg.tellsApart
  | begun rng => exact Walk.tellsApart_rewind hg.tellsApart g.spec

theorem Spread.emits (hv : spec.validate = .ok ()) {g' : Grid Walk}
    {answer : Except Fault (Option Number)} (hg : g.Spread spec) (h : g.Emits answer g') :
    g'.Spread spec := by
  refine ⟨hg.toOnce.emits hv h, ?_⟩
  cases h with
  | refused _ => exact hg.tellsApart
  | undrawn => exact hg.tellsApart
  | stepped rng running => exact Walk.tellsApart_next hg.tellsApart rng

theorem Spread.spends (hg : g.Spread spec) (running : g.phase = .running) (rng : Rng) :
    Walk.Spends Walk.Pending g.walk (g.walk.next rng).1 (g.walk.next rng).2.1 :=
  Walk.next_spends (hg.visits running) hg.once hg.tellsApart rng

theorem Pending.of_emits (hg : g.Spread spec) {g' : Grid Walk}
    {answer : Except Fault (Option Number)} (h : g.Emits answer g') {n : Number}
    (hn : g'.Pending n) : g.Pending n := by
  cases h with
  | refused _ => exact hn
  | undrawn => exact hn
  | stepped rng running =>
    obtain ⟨i, hi, hpoint, hvalue⟩ := hn
    exact ⟨i, (hg.spends running rng).kept i hi, hpoint, hvalue⟩

/-- **A walk without repetitions hands out no number twice** in a pass, if different points are
different numbers. -/
theorem spread_spends (hv : spec.validate = .ok ()) (hinj : spec.Injective) :
    (machine owner Walk.kind).Spends (Spread spec) Pending where
  init := fun context _ streams hg => hg.begins (init_begins _ _ context streams)
  generate := fun _ hg => hg.emits hv (generate_emits _ _)
  reset := fun _ streams hg => hg.begins (reset_begins _ _ streams)
  close := fun _ hg => ⟨⟨⟨hg.spec_eq, hg.fits, nofun⟩, hg.once⟩, hg.tellsApart⟩
  spent := by
    rintro ⟨spec', walk, stream, phase⟩ n hg h
    obtain rfl : spec' = spec := hg.spec_eq
    have he := generate_emits owner ⟨spec', walk, stream, phase⟩
    rw [h] at he
    obtain ⟨rng, i, running, hi, hvalue, hleft⟩ := he.eq_of_some
    have hspends := (hg.spends running rng).spent i hi
    have hpoint := (Walk.next_visits hv (hg.visits running) rng).2 i hi
    refine ⟨⟨i, hspends.1, hpoint, hvalue⟩, ?_⟩
    rw [hleft]
    -- the same number again would be at the same index
    rintro ⟨j, hj, hjpoint, hjvalue⟩
    obtain rfl := hinj i j hpoint hjpoint (hvalue.symm.trans hjvalue)
    exact hspends.2 hj
  generate_pending := fun _ _ hg hn => hn.of_emits hg (generate_emits _ _)
  close_pending := fun _ _ _ hn => hn

end Spread

section Long

variable {min max granularity : Int64}

/-- No walk over whole numbers confuses indices. -/
theorem spread_long (hv : (Spec.long min max granularity).validate = .ok ()) :
    Once (.long min max granularity) = Spread (.long min max granularity) := by
  funext g
  refine propext ⟨fun hg => ⟨hg, ?_⟩, Spread.toOnce⟩
  exact Walk.tellsApart_long (Spec.validate_long.mp hv).2 g.walk

/-- Different points of a range of whole numbers are different numbers, so none is handed out
twice. -/
theorem machine_spends (hv : (Spec.long min max granularity).validate = .ok ()) :
    (machine owner Walk.kind).Spends (Once (.long min max granularity)) Pending := by
  rw [spread_long hv]
  exact spread_spends hv (Spec.injective_long hv)

end Long

end Grid
end SynthData
