import SynthData.Proofs.Depletion.Chosen
import SynthData.Proofs.Guarded.Numbers
import SynthData.Proofs.Strategy.Named

/-!
# Strategies are never broken off

A strategy makes generators of numbers and redistributes the values of a source.
Here both are run with their computations in words.  Whatever the parameters of
the strategy, the range and the source are, and whatever is called in which order,
no operation is broken off, and what comes out is what the generators of
`Strategy.numbers` and `Strategy.applyTo` give (`Strategy.run_guarded`).

Nothing is assumed of a source: its calls are taken at their word, and so are the
weights of its values.
-/
namespace SynthData

variable {σ α : Type} {m : Machine σ α}

/-! ## Number generators over some range -/

/-- What follows a machine under each of several invariants follows it under any of them. -/
theorem GuardedMachine.Follows.any {ι : Type} {g : GuardedMachine σ α} {inv : ι → σ → Prop}
    {p : ι → Prop} (hclose : ∀ s, g.close s = m.close s)
    (h : ∀ i, p i → g.Follows m (inv i)) : g.Follows m (fun s => ∃ i, p i ∧ inv i s) where
  init := fun context s streams ⟨i, hi, hs⟩ => ⟨i, hi, (h i hi).init context s streams hs⟩
  generate := fun s ⟨i, hi, hs⟩ => ⟨i, hi, (h i hi).generate s hs⟩
  reset := fun s streams ⟨i, hi, hs⟩ => ⟨i, hi, (h i hi).reset s streams hs⟩
  close := fun s ⟨i, hi, hs⟩ => ⟨i, hi, (h i hi).close s hs⟩
  init_eq := fun context s streams ⟨i, hi, hs⟩ => (h i hi).init_eq context s streams hs
  generate_eq := fun s ⟨i, hi, hs⟩ => (h i hi).generate_eq s hs
  reset_eq := fun s streams ⟨i, hi, hs⟩ => (h i hi).reset_eq s streams hs
  close_eq := hclose

namespace NumberGen

/-- The computations of a generator fit their words, over some valid range of whole numbers. -/
def Fitting (g : NumberGen) : Prop :=
  ∃ spec : Spec, (spec.IsWhole ∧ spec.validate = .ok ()) ∧ g.Safe spec

theorem guarded_follows_fitting : guarded.Follows machine Fitting :=
  .any (fun g => by cases g <;> rfl) fun _ ⟨⟨_, _, _, hspec⟩, hv⟩ => by
    subst hspec
    exact guarded_follows hv

/-- The walk of a generator is sized, if it has one. -/
def Sized : NumberGen → Prop
  | grid _ g => g.walk.Sized
  | expand _ _ e => e.wrapped.source.walk.Sized
  | weighted .. | inverse _ | listed _ => True

end NumberGen

namespace Strategy

/-! ## Numbers -/

/-- The value at which a strategy is asked to begin. -/
def initial? : Strategy → Option Float
  | randomWalk _ _ _ initial => initial
  | step _ initial _ => initial
  | _ => none

/-- The generator of the numbers of a range.  An initial value is looked up on the grid once the
range and the request have been accepted. -/
def guardedNumbers (s : Strategy) (spec : Spec) (unique : Bool) :
    Guarded (Except Fault NumberGen) :=
  match spec.validate, s.check unique, s.initial? with
  | .ok _, .ok _, some x => do
    let _ ← spec.guardedFloorIndex x
    return s.numbers spec unique
  | _, _, _ => return s.numbers spec unique

theorem guardedNumbers_eq {spec : Spec} (hspec : spec.IsWhole) (s : Strategy) (unique : Bool) :
    s.guardedNumbers spec unique = .ok (s.numbers spec unique) := by
  obtain ⟨min, max, granularity, rfl⟩ := hspec
  unfold guardedNumbers
  split
  · rename_i hv _ _
    simp [Spec.guardedFloorIndex_eq hv]
  · rfl

theorem sized_overGrid {owner : String} {spec : Spec} {walk : Walk} {gen : NumberGen}
    (h : overGrid owner spec walk = .ok gen) (hw : walk.Sized) : gen.Sized := by
  obtain ⟨-, rfl⟩ := overGrid_eq_ok.mp h
  exact hw

/-- Random steps are drawn between bounds in order, and counters begin without bits. -/
theorem numbers_sized {s : Strategy} {spec : Spec} {unique : Bool} {gen : NumberGen}
    (h : s.numbers spec unique = .ok gen) : gen.Sized := by
  cases s with
  | random | shuffle _ _ | increment | wedge | fibonacci | padovan | head _ _ =>
    exact sized_overGrid h trivial
  | bitReverse => exact sized_overGrid h (Nat.zero_le 64)
  | cumulated draws positive =>
    cases unique with
    | true => cases h
    | false => exact sized_overGrid h trivial
  | randomWalk least most ordered initial =>
    simp only [numbers] at h
    split at h
    · cases h
    · cases h
    · cases h
    · exact sized_overGrid h (Int64.le_iff_toInt_le.mp ordered)
  | step delta initial limit =>
    simp only [numbers] at h
    split at h
    · cases h
    · cases h
    · cases h
    · exact sized_overGrid h trivial
  | expand pool quota =>
    simp only [numbers] at h
    split at h
    · cases h
    · obtain rfl := Except.ok.inj h
      trivial
  | weight function | inverse function =>
    simp only [numbers] at h
    split at h
    · cases h
    · split at h
      · cases h
      · obtain rfl := Except.ok.inj h
        trivial
  | itemWeight weight => cases h
  | fixed list =>
    obtain rfl := Except.ok.inj h
    trivial

/-- Strategies make generators whose computations fit their words. -/
theorem numbers_fitting {s : Strategy} {spec : Spec} (hspec : spec.IsWhole) {unique : Bool}
    {gen : NumberGen} (h : s.numbers spec unique = .ok gen) : gen.Fitting := by
  by_cases hs : ∃ list, s = .fixed list
  · -- given numbers do not depend on a range, so any will do
    obtain ⟨list, rfl⟩ := hs
    obtain rfl := Except.ok.inj h
    exact ⟨.long 0 0 1, ⟨⟨0, 0, 1, rfl⟩, by rfl⟩, trivial⟩
  · obtain ⟨hv, hmakes⟩ := numbers_makes (fun list heq => hs ⟨list, heq⟩) h
    have hsized := numbers_sized h
    refine ⟨spec, ⟨hspec, hv⟩, ?_⟩
    cases hmakes with
    | grid owner walk fits once => exact ⟨Grid.on_new fits, hsized⟩
    | expand quota pool => exact ⟨⟨Grid.on_new trivial, trivial⟩, fun _ _ => trivial⟩
    | weighted owner weight repeating => exact Weighted.on_new spec weight
    | inverse function repeating => rfl

end Strategy

/-! ## The first values of a source -/

namespace Head

/-- The generator of the first `size` values of a source. -/
def guarded (m : Machine σ α) (size : Nat) : GuardedMachine (Head σ) α where
  init context head streams := return (machine m size).init context head streams
  generate head :=
    match head.wrapped.phase.requireRunning owner with
    | .error fault => return (.error fault, head)
    | .ok _ =>
      if size ≤ head.emitted then return (.ok none, head)
      else
        match head.wrapped.generate owner m with
        | (.ok (some v), wrapped) => do
          let emitted ← Word.add 64 head.emitted 1
          return (.ok (some v), ⟨wrapped, emitted⟩)
        | (answer, wrapped) => return (answer, ⟨wrapped, head.emitted⟩)
  reset head streams := return (machine m size).reset head streams
  close := (machine m size).close

/-- The values that are passed on are counted up to their number at most. -/
theorem guarded_follows (m : Machine σ α) {size : Nat} (hsize : size < 2 ^ 64) :
    (guarded m size).Follows (machine m size) (fun _ => True) where
  init := fun _ _ _ _ => trivial
  generate := fun _ _ => trivial
  reset := fun _ _ _ => trivial
  close := fun _ _ => trivial
  init_eq := fun _ _ _ _ => rfl
  generate_eq := by
    rintro ⟨wrapped, emitted⟩ -
    simp only [guarded, machine]
    cases wrapped.phase.requireRunning owner with
    | error fault => rfl
    | ok _ =>
      by_cases hmore : size ≤ emitted
      · simp [hmore]
      · have hadd : Word.add 64 emitted 1 = .ok (emitted + 1) := Word.add_ok (by omega)
        rcases wrapped.generate owner m with ⟨_ | _ | v, wrapped'⟩
        · simp [hmore]
        · simp [hmore]
        · simp [hmore, hadd]
  reset_eq := fun _ _ _ => rfl
  close_eq := fun _ => rfl

end Head

/-! ## Items by their own weights -/

namespace Individual

/-- An item by its weight. -/
def guardedEmit (g : Individual σ α) : Guarded (Option α × Individual σ α) :=
  match g.sample, g.rng with
  | some sample, some rng => do
    let (draw, rng) := rng.unit
    let item ← entryAt sample.items (Weighing.lowerBound sample.table draw)
    return (some item, { g with rng := some rng })
  | _, _ => return (none, g)

/-- The generator of a source's values by their own weights.  The weights are added up in doubles
when the source is read. -/
def guarded (m : Machine σ α) (weight : α → Float) : GuardedMachine (Individual σ α) α where
  init context g streams := return (machine m weight).init context g streams
  generate g :=
    match g.wrapped.phase.requireRunning owner with
    | .error fault => return (.error fault, g)
    | .ok _ => do
      let (value, g) ← g.guardedEmit
      return (.ok value, g)
  reset g streams := return (machine m weight).reset g streams
  close := (machine m weight).close

/-- The items have a share each, so that there is one at every position that is drawn. -/
theorem guarded_follows (m : Machine σ α) (weight : α → Float) :
    (guarded m weight).Follows (machine m weight) (fun g => True ∧ ∀ s ∈ g.sample, Shares s) where
  toKeeps := machine_keeps (GuardedMachine.ofMachine_follows m).toKeeps
  init_eq := fun _ _ _ _ => rfl
  generate_eq := by
    rintro ⟨⟨source, phase⟩, context, sample, rng, truncated⟩ ⟨-, hshares⟩
    cases phase with
    | created | closed => rfl
    | running =>
      cases sample with
      | none => rfl
      | some sample =>
        cases rng with
        | none => rfl
        | some rng =>
          obtain ⟨hpos, hsize⟩ := hshares sample rfl
          have hitem : Weighing.lowerBound sample.table rng.unit.1 < sample.items.size :=
            hsize ▸ Weighing.lowerBound_lt (hsize ▸ hpos) rng.unit.1
          simp [guarded, machine, Phase.requireRunning, guardedEmit, emit, entryAt_ok hitem, hitem]
  reset_eq := fun _ _ _ => rfl
  close_eq := fun _ => rfl

end Individual

/-! ## Values at chosen positions -/

namespace Sample

/-- The choice among the values of a list, ready to run. -/
def guardedChoose (s : Strategy) (unique : Bool) (context : Context) (values : Array α)
    (streams : Streams) : Guarded (Except Fault (Chooser NumberGen α) × Streams) :=
  match values.toList with
  | [] => return (.ok .nothing, streams)
  | [_] => do
    let value ← entryAt values 0
    let constant := if unique then Constant.single value else Constant.always value
    match Constant.machine.init context constant streams with
    | (.error fault, _, streams) => return (.error fault, streams)
    | (.ok _, constant, streams) => return (.ok (.single constant), streams)
  | _ => do
    match ← s.guardedNumbers (.indices values.size) unique with
    | .error fault => return (.error fault, streams)
    | .ok numbers =>
      match ← NumberGen.guarded.init context numbers streams with
      | (.error fault, _, streams) => return (.error fault, streams)
      | (.ok _, numbers, streams) => return (.ok (.positions numbers), streams)

/-- Reads the values of a running source and prepares the choice among them. -/
def guardedMaterialize (m : Machine σ α) (s : Strategy) (unique : Bool) (context : Context)
    (sampler : Sample σ NumberGen α) (streams : Streams) :
    Guarded (Except Fault Unit × Sample σ NumberGen α × Streams) :=
  match m.readAhead context.settings.cacheSize sampler.wrapped.source with
  | (.error fault, source) =>
    return (.error fault, { sampler with wrapped := ⟨source, sampler.wrapped.phase⟩ }, streams)
  | (.ok (values, truncated), source) => do
    match ← guardedChoose s unique context values streams with
    | (.error fault, streams) =>
      return (.error fault, { sampler with wrapped := ⟨source, sampler.wrapped.phase⟩ }, streams)
    | (.ok chooser, streams) =>
      return (.ok (),
        ⟨⟨source, sampler.wrapped.phase⟩, sampler.context, values, truncated, chooser⟩, streams)

/-- Initializes the source, keeps the context and reads the values. -/
def guardedInit (m : Machine σ α) (s : Strategy) (unique : Bool) (context : Context)
    (sampler : Sample σ NumberGen α) (streams : Streams) :
    Guarded (Except Fault Unit × Sample σ NumberGen α × Streams) :=
  match sampler.wrapped.init owner m context streams with
  | (.error fault, wrapped, streams) =>
    return (.error fault, { sampler with wrapped := wrapped }, streams)
  | (.ok _, wrapped, streams) =>
    guardedMaterialize m s unique context
      { sampler with wrapped := wrapped, context := some context } streams

/-- The next value of a running sampler.  A position outside of the list is a failure that is
reported and breaks nothing off. -/
def guardedEmit (s : Strategy) (sampler : Sample σ NumberGen α) :
    Guarded (Except Fault (Option α) × Sample σ NumberGen α) :=
  match sampler.chooser with
  | .nothing | .single _ => return sampler.emit s.distribution
  | .positions numbers => do
    match ← NumberGen.guarded.generate numbers with
    | (.error fault, numbers) =>
      return (.error fault, { sampler with chooser := .positions numbers })
    | (.ok none, numbers) => return (.ok none, { sampler with chooser := .positions numbers })
    | (.ok (some number), numbers) =>
      let answer := match sampler.values[number.toIndex]? with
        | some v => .ok (some v)
        | none => .error (.positionOutside s.name number.toIndex sampler.values.size)
      return (answer, { sampler with chooser := .positions numbers })

/-- The generator of the source's values at the positions that a strategy chooses. -/
def guarded (m : Machine σ α) (s : Strategy) (unique : Bool) :
    GuardedMachine (Sample σ NumberGen α) α where
  init := guardedInit m s unique
  generate sampler :=
    match sampler.wrapped.phase.requireRunning owner with
    | .error fault => return (.error fault, sampler)
    | .ok _ => sampler.guardedEmit s
  reset sampler streams :=
    match sampler.wrapped.phase with
    | .created => do
      let (context, streams) := streams.defaultContext
      guardedInit m s unique context sampler streams
    | _ =>
      match sampler.wrapped.reset owner m streams with
      | (.error fault, wrapped, streams) =>
        return (.error fault, { sampler with wrapped := wrapped }, streams)
      | (.ok _, wrapped, streams) => do
        let sampler := { sampler with wrapped := wrapped }
        match sampler.context with
        | some context => guardedMaterialize m s unique context sampler streams
        | none =>
          let (context, streams) := streams.defaultContext
          guardedMaterialize m s unique context sampler streams
  close := (machine m s.distribution unique).close

variable {s : Strategy} {unique : Bool}

/-- The positions of a list are whole numbers. -/
theorem indices_isWhole (length : Nat) : (Spec.indices length).IsWhole := ⟨_, _, _, rfl⟩

theorem guardedChoose_eq (context : Context) (values : Array α) (streams : Streams) :
    guardedChoose s unique context values streams =
      .ok (choose s.distribution unique context values streams) := by
  obtain ⟨list⟩ := values
  rcases list with _ | ⟨a, _ | ⟨b, list⟩⟩
  · rfl
  · cases unique with
    | true | false => rfl
  · simp only [guardedChoose, choose, Strategy.guardedNumbers_eq (indices_isWhole _),
      Guarded.ok_bind]
    cases hnumbers : s.numbers (.indices (Array.mk (a :: b :: list)).size) unique with
    | error fault =>
      simp only [Strategy.distribution, hnumbers]
      rfl
    | ok numbers =>
      have hfitting := Strategy.numbers_fitting (indices_isWhole _) hnumbers
      simp only [Strategy.distribution, hnumbers, Guarded.ok_bind,
        NumberGen.guarded_follows_fitting.init_eq context numbers streams hfitting]
      rcases NumberGen.machine.init context numbers streams with ⟨fault | _, numbers', streams'⟩
      · rfl
      · rfl

theorem guardedMaterialize_eq (context : Context) (sampler : Sample σ NumberGen α)
    (streams : Streams) :
    guardedMaterialize m s unique context sampler streams =
      .ok (materialize m s.distribution unique context sampler streams) := by
  unfold guardedMaterialize materialize
  rcases m.readAhead context.settings.cacheSize sampler.wrapped.source with
    ⟨fault | ⟨values, truncated⟩, source⟩
  · rfl
  · simp only [guardedChoose_eq, Guarded.ok_bind]
    rcases choose s.distribution unique context values streams with ⟨fault | chooser, streams'⟩
    · rfl
    · rfl

theorem guardedInit_eq (context : Context) (sampler : Sample σ NumberGen α) (streams : Streams) :
    guardedInit m s unique context sampler streams =
      .ok (init m s.distribution unique context sampler streams) := by
  unfold guardedInit init
  rcases sampler.wrapped.init owner m context streams with ⟨fault | _, wrapped, streams'⟩
  · rfl
  · exact guardedMaterialize_eq _ _ _

theorem guarded_follows (m : Machine σ α) (s : Strategy) (unique : Bool) :
    (guarded m s unique).Follows (machine m s.distribution unique)
      (fun sampler => True ∧ ChooserInv NumberGen.Fitting sampler.chooser) where
  toKeeps := machine_keeps (GuardedMachine.ofMachine_follows m).toKeeps
    NumberGen.guarded_follows_fitting.toKeeps
    fun n _ h => Strategy.numbers_fitting (indices_isWhole n) h
  init_eq := fun context sampler streams _ => guardedInit_eq context sampler streams
  generate_eq := by
    rintro ⟨⟨source, phase⟩, context, values, truncated, chooser⟩ ⟨-, hchooser⟩
    cases phase with
    | created | closed => rfl
    | running =>
      cases chooser with
      | nothing | single _ => rfl
      | positions numbers =>
        have hgenerate := NumberGen.guarded_follows_fitting.generate_eq numbers hchooser
        simp only [guarded, machine, Phase.requireRunning, guardedEmit, emit, hgenerate,
          Guarded.ok_bind, Strategy.distribution]
        rcases NumberGen.machine.generate numbers with ⟨_ | _ | number, numbers'⟩
        · rfl
        · rfl
        · rfl
  reset_eq := by
    rintro ⟨⟨source, phase⟩, known, values, truncated, chooser⟩ streams -
    cases phase with
    | created => exact guardedInit_eq _ _ _
    | running | closed =>
      simp only [guarded, machine]
      rcases Wrapped.reset owner m _ streams with ⟨fault | _, wrapped, streams'⟩
      · rfl
      · cases known with
        | none => exact guardedMaterialize_eq _ _ _
        | some context => exact guardedMaterialize_eq _ _ _
  close_eq := fun _ => rfl

end Sample

/-! ## Strategies -/

/-- A generator whose calls can also be made so that they may be broken off. -/
structure GuardedProducer (α : Type) extends Producer α where
  guarded : GuardedMachine State α

namespace GuardedProducer

/-- Under an invariant that holds at first, the calls do what those of the generator do. -/
def Follows (p : GuardedProducer α) : Prop :=
  ∃ inv, p.guarded.Follows p.machine inv ∧ inv p.state

theorem Follows.run {p : GuardedProducer α} (h : p.Follows) (calls : List Machine.Call)
    (streams : Streams) :
    p.guarded.run calls (.start p.state streams) =
      .ok (p.machine.run calls (.start p.state streams)) := by
  obtain ⟨_, hfollows, hinv⟩ := h
  exact hfollows.run hinv calls

end GuardedProducer

namespace Strategy

/-- The generator that redistributes the values of a source, whose calls are taken at their
word. -/
def guardedApplyTo (s : Strategy) (source : Producer Value) (unique : Bool) :
    Except Fault (GuardedProducer Value) :=
  match s with
  | expand pool quota =>
    .ok ⟨⟨_, Expand.machine source.machine unique (Expand.clampQuota quota),
      .new source.state pool⟩,
      Expand.guarded (.ofMachine source.machine) unique (Expand.clampQuota quota)⟩
  | head size _ =>
    .ok ⟨⟨_, Head.machine source.machine size.toNat, .new source.state⟩,
      Head.guarded source.machine size.toNat⟩
  | itemWeight weigh =>
    if unique then .error .itemWeightUnique
    else .ok ⟨⟨_, Individual.machine source.machine weigh, .new source.state⟩,
      Individual.guarded source.machine weigh⟩
  | _ =>
    match s.check unique with
    | .error fault => .error fault
    | .ok _ => .ok ⟨s.sampleBy source unique, Sample.guarded source.machine s unique⟩

/-- The generators are those that a strategy makes. -/
theorem map_guardedApplyTo (s : Strategy) (source : Producer Value) (unique : Bool) :
    (s.guardedApplyTo source unique).map GuardedProducer.toProducer =
      s.applyTo source unique := by
  obtain ⟨answer, hcheck⟩ : ∃ answer, s.check unique = answer := ⟨_, rfl⟩
  cases s with
  | expand | head => rfl
  | itemWeight weigh =>
    cases unique with
    | true | false => rfl
  | _ =>
    simp only [guardedApplyTo, applyTo, hcheck]
    cases answer with
    | error | ok => rfl

theorem guardedApplyTo_follows {s : Strategy} {source : Producer Value} {unique : Bool}
    {p : GuardedProducer Value} (h : s.guardedApplyTo source unique = .ok p) : p.Follows := by
  unfold guardedApplyTo at h
  split at h
  · obtain rfl := Except.ok.inj h
    exact ⟨_, Expand.guarded_follows (GuardedMachine.ofMachine_follows source.machine) _ _,
      trivial, nofun⟩
  · rename_i size _
    obtain rfl := Except.ok.inj h
    exact ⟨_, Head.guarded_follows source.machine size.toNat_lt, trivial⟩
  · split at h
    · cases h
    · obtain rfl := Except.ok.inj h
      exact ⟨_, Individual.guarded_follows source.machine _, trivial, nofun⟩
  · split at h
    · cases h
    · obtain rfl := Except.ok.inj h
      exact ⟨_, Sample.guarded_follows source.machine s unique, trivial, trivial⟩

/-- **A strategy is never broken off**, neither when it makes a generator, nor in any run of the
generators that it makes over whole numbers or over a source. -/
theorem run_guarded (s : Strategy) (min max granularity : Int64) (source : Producer Value)
    (unique : Bool) (calls : List Machine.Call) (streams : Streams) :
    s.guardedNumbers (.long min max granularity) unique =
        .ok (s.numbers (.long min max granularity) unique) ∧
      (∀ gen, s.numbers (.long min max granularity) unique = .ok gen →
        NumberGen.guarded.run calls (.start gen streams) =
          .ok (NumberGen.machine.run calls (.start gen streams))) ∧
      ∀ p, s.applyTo source unique = .ok p →
        ∃ g, s.guardedApplyTo source unique = .ok g ∧ g.toProducer = p ∧
          g.guarded.run calls (.start g.state streams) =
            .ok (g.machine.run calls (.start g.state streams)) := by
  have hspec : (Spec.long min max granularity).IsWhole := ⟨min, max, granularity, rfl⟩
  refine ⟨guardedNumbers_eq hspec s unique, fun gen hgen => ?_, fun p hp => ?_⟩
  · exact NumberGen.guarded_follows_fitting.run (numbers_fitting hspec hgen) calls
  · obtain ⟨g, hg, rfl⟩ := of_map_eq_ok ((map_guardedApplyTo s source unique).trans hp)
    exact ⟨g, hg, rfl, (guardedApplyTo_follows hg).run calls streams⟩

/-- The widest grid and a list, with the longest stride. -/
theorem run_guarded_longestStride :
    let s := shuffle 18446744073709551615 (by decide)
    let gen := NumberGen.grid "ShuffleSequence"
      (.new (.long Int64.minValue Int64.maxValue 1) (.shuffle (.new 18446744073709551615)))
    let source : Producer Value := ⟨_, Listed.machine, Listed.new #[.long 1, .long 2]⟩
    let calls : List Machine.Call := [.reset, .generate, .generate, .close, .generate]
    let streams := Streams.start fun _ => .ofSeed 0
    s.numbers (.long Int64.minValue Int64.maxValue 1) true = .ok gen ∧
      NumberGen.guarded.run calls (.start gen streams) =
        .ok (NumberGen.machine.run calls (.start gen streams)) ∧
      s.applyTo source true = .ok (s.sampleBy source true) ∧
      ∃ g, s.guardedApplyTo source true = .ok g ∧ g.toProducer = s.sampleBy source true ∧
        g.guarded.run calls (.start g.state streams) =
          .ok (g.machine.run calls (.start g.state streams)) := by
  intro s gen source calls streams
  have h := run_guarded s Int64.minValue Int64.maxValue 1 source true calls streams
  exact ⟨rfl, h.2.1 gen rfl, rfl, h.2.2 (s.sampleBy source true) rfl⟩

end Strategy
end SynthData
