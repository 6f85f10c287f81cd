import SynthData.Field.Basic
import SynthData.Proofs.Generator.Restart
import SynthData.Proofs.Strategy.Numbers
import SynthData.Proofs.Walk.Drawless

/-!
# Deterministic strategies

A strategy that draws nothing hands out the same sequence in every pass (`Drawless.passes_repeat`).

Its numbers come from a walk that draws nothing either.  Wherever the walk is, a reset rewinds it
to where it began, and the random stream that the generator holds makes no difference
(`Grid.returns`).  The values of a list it samples by such numbers, except that `head` passes the
first values on.
-/
namespace SynthData

/-! ## Grids -/

namespace Grid

variable {owner : String} {spec : Spec} {w : Walk}

/-- Grids that run with the same walk, which draws nothing, and with any random streams. -/
inductive Alike : Grid Walk → Grid Walk → Prop where
  | intro (spec : Spec) (walk : Walk) (rng rng' : Rng) : walk.Drawless →
    Alike ⟨spec, walk, some rng, .running⟩ ⟨spec, walk, some rng', .running⟩

/-- **The random stream of a walk that draws nothing makes no difference.** -/
theorem equates (owner : String) : (machine owner Walk.kind).Equates Alike where
  answer := by
    rintro _ _ ⟨spec, walk, rng, rng', hwalk⟩
    exact congrArg (fun index => Except.ok (index.map spec.valueAt)) (hwalk.next_eq rng rng').1
  generate := by
    rintro _ _ ⟨spec, walk, rng, rng', hwalk⟩
    have hnext : Alike ⟨spec, (walk.next rng).2.1, some (walk.next rng).2.2, .running⟩
        ⟨spec, (walk.next rng').2.1, some (walk.next rng').2.2, .running⟩ := by
      rw [← (hwalk.next_eq rng rng').2]
      exact .intro _ _ _ _ (hwalk.next rng)
    exact hnext

/-- A grid in the course of a pass that began with a walk that draws nothing. -/
inductive Follows (spec : Spec) (begun : Walk) : Grid Walk → Prop where
  | intro (walk : Walk) (rng : Rng) : walk.Drawless → walk.rewind spec = begun →
    Follows spec begun ⟨spec, walk, some rng, .running⟩

/-- **A grid returns to the beginning of its walk.** -/
theorem returns (hw : w.Drawless) (owner : String) (spec : Spec) (rng : Rng) :
    (machine owner Walk.kind).Returns (Follows spec (w.rewind spec)) Alike
      ⟨spec, w.rewind spec, some rng, .running⟩ where
  equates := equates owner
  begun := .intro _ _ hw.rewind hw.rewind_rewind
  init := by
    rintro context _ streams ⟨walk, rng, hwalk, hbegun⟩
    exact .intro walk rng hwalk hbegun
  generate := by
    rintro _ ⟨walk, rng, hwalk, hbegun⟩
    exact .intro _ _ (hwalk.next rng) ((hwalk.rewind_next rng).trans hbegun)
  reset := by
    rintro _ streams ⟨walk, rng', hwalk, hbegun⟩
    rw [← hbegun]
    exact ⟨rfl, .intro _ _ hwalk.rewind hwalk.rewind_rewind, .intro _ _ _ _ hwalk.rewind⟩

theorem init_new (hv : spec.validate = .ok ()) (owner : String) (w : Walk) (context : Context)
    (streams : Streams) :
    (machine owner Walk.kind).init context (new spec w) streams =
      (.ok (), ⟨spec, w.rewind spec, some (streams.issue context).1, .running⟩,
        (streams.issue context).2) := by
  simp only [machine, init, new, Phase.requireCreated, hv, Walk.kind]

end Grid

namespace Strategy

variable {s : Strategy}

/-- The strategy draws nothing from a random stream. -/
def Drawless : Strategy → Prop
  | shuffle .. | step .. | increment | wedge | bitReverse | fibonacci | padovan | head .. => True
  | random | cumulated .. | randomWalk .. | expand .. | weight .. | inverse .. | itemWeight _ |
    fixed _ => False

/-- The numbers of a strategy that draws nothing come from a walk that draws nothing. -/
theorem Drawless.numbers (hs : s.Drawless) {spec : Spec} {unique : Bool} {gen : NumberGen}
    (h : s.numbers spec unique = .ok gen) :
    spec.validate = .ok () ∧
      ∃ owner walk, gen = .grid owner (.new spec walk) ∧ walk.Drawless := by
  have hgrid {owner : String} {walk : Walk} (h : overGrid owner spec walk = .ok gen)
      (hwalk : walk.Drawless) : spec.validate = .ok () ∧
        ∃ owner walk, gen = .grid owner (.new spec walk) ∧ walk.Drawless := by
    obtain ⟨hv, rfl⟩ := overGrid_eq_ok.mp h
    exact ⟨hv, owner, walk, rfl, hwalk⟩
  cases s with
  | shuffle | increment | wedge | bitReverse | fibonacci | padovan | head =>
    exact hgrid h trivial
  | step delta initial limit =>
    simp only [Strategy.numbers] at h
    split at h
    · cases h
    · cases h
    · cases h
    · exact hgrid h trivial
  | _ => exact hs.elim

/-- What a strategy that draws nothing chooses cannot be told apart. -/
def SameNumbers (gen gen' : NumberGen) : Prop :=
  ∃ owner g g', Grid.Alike g g' ∧ gen = .grid owner g ∧ gen' = .grid owner g'

/-- **The numbers of a strategy that draws nothing begin alike.** -/
theorem Drawless.steady (hs : s.Drawless) (unique : Bool) :
    s.distribution.Steady unique SameNumbers where
  equates := .exists fun owner => (Grid.equates owner).embed (NumberGen.embeds_grid owner)
  init := by
    intro spec gen hgen context streams
    obtain ⟨hv, owner, walk, rfl, hwalk⟩ := hs.numbers hgen
    show (NumberGen.machine.init context (.grid owner (.new spec walk)) streams).1 = .ok ()
    rw [(NumberGen.embeds_grid owner).init]
    exact congrArg Prod.fst (Grid.init_new hv owner walk context streams)
  alike := by
    intro spec gen hgen context streams streams'
    obtain ⟨hv, owner, walk, rfl, hwalk⟩ := hs.numbers hgen
    show SameNumbers (NumberGen.machine.init context (.grid owner (.new spec walk)) streams).2.1
      (NumberGen.machine.init context (.grid owner (.new spec walk)) streams').2.1
    refine ⟨owner, _, _, ?_, rfl, rfl⟩
    rw [NumberGen.gridMachine, Grid.init_new hv, Grid.init_new hv]
    exact .intro _ _ _ _ hwalk.rewind

/-- A strategy that draws nothing samples the values of a source, or passes the first ones on. -/
theorem Drawless.applyTo (hs : s.Drawless) {source : Producer Value} {unique : Bool}
    {p : Producer Value} (h : s.applyTo source unique = .ok p) :
    p = s.sampleBy source unique ∨
      ∃ size, p = ⟨Head source.State, Head.machine source.machine size, .new source.state⟩ := by
  cases s with
  | shuffle | step | increment | wedge | bitReverse | fibonacci | padovan =>
    left
    simp only [Strategy.applyTo] at h
    split at h
    · cases h
    · exact (Except.ok.inj h).symm
  | head size positive => exact .inr ⟨_, (Except.ok.inj h).symm⟩
  | _ => exact hs.elim

/-- **A strategy that draws nothing repeats itself.** -/
theorem Drawless.passes_repeat (hs : s.Drawless) (unique : Bool) (context : Context)
    (streams : Streams) :
    (∀ spec gen, s.numbers spec unique = .ok gen →
      (NumberGen.machine.init context gen streams).1 = .ok () ∧
        NumberGen.machine.Repeats (NumberGen.machine.init context gen streams).2.1) ∧
    ∀ values p, s.applyTo (listProducer values) unique = .ok p →
      (p.machine.init context p.state streams).1 = .ok () →
        p.machine.Repeats (p.machine.init context p.state streams).2.1 := by
  refine ⟨fun spec gen hgen => ?numbers, fun values p hp hinit => ?values⟩
  case numbers =>
    obtain ⟨hv, owner, walk, rfl, hwalk⟩ := hs.numbers hgen
    have hbegun := Grid.init_new hv owner walk context streams
    have hreturns := (Grid.returns hwalk owner spec (streams.issue context).1).embed
      (NumberGen.embeds_grid owner)
    rw [(NumberGen.embeds_grid owner).init, NumberGen.gridMachine, hbegun]
    exact ⟨rfl, hreturns.repeats⟩
  case values =>
    have hlist := Listed.returns values.toArray
    rcases hs.applyTo hp with rfl | ⟨size, rfl⟩
    · obtain ⟨list, truncated, chooser, streams', -, hread, hchoose, hstate⟩ :=
        Sample.init_new hinit
      have hreturns := Sample.returns hlist (hs.steady unique) hread hchoose
      exact hstate ▸ hreturns.repeats
    · exact (Head.returns hlist size).repeats

/-- Three letters from both ends, with a reset when two of them have been handed out. -/
theorem Drawless.passes_repeat_wedge :
    let streams := Streams.start fun _ => .ofSeed 0
    let source := listProducer [.text "a", .text "b", .text "c"]
    let p := wedge.sampleBy source true
    let begun := (p.machine.init ⟨{}, 0⟩ p.state streams).2.1
    let later := p.machine.run [.generate, .generate] (.start begun streams)
    wedge.applyTo source true = .ok p ∧ (p.machine.init ⟨{}, 0⟩ p.state streams).1 = .ok () ∧
      p.machine.stream 5 begun = [.text "a", .text "c", .text "b"] ∧
      (p.machine.reset later.state streams).1 = .ok () ∧
      ∀ n, p.machine.answer n (p.machine.reset later.state streams).2.1 =
        p.machine.answer n begun := by
  refine ⟨rfl, rfl, rfl, ?_⟩
  exact (Drawless.passes_repeat (s := wedge) trivial true ⟨{}, 0⟩ (.start fun _ => .ofSeed 0)).2
    [.text "a", .text "b", .text "c"] _ rfl rfl [.generate, .generate] (by simp) _ _

end Strategy
end SynthData
