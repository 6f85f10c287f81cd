import SynthData.Generator.Filtered
import SynthData.Proofs.Generator.Loader
import SynthData.Proofs.Strategy.Refusal

/-!
# Initialization without rejections

A machine admits a request when initializing it never fails with a rejection,
whatever state it is in.  Number generators do, of every kind
(`NumberGen.machine_admits`): once numbers have been promised, failures are about
the range, the weights or the life cycle.

Generators over a source admit if their source does.  Those that read the source
in advance also need it to answer without rejections, and a sampler asks for
numbers only when it is initialized, so there the promise is a hypothesis
(`Sample.machine_admits`).
-/
namespace SynthData

/-! ## Results that are no rejections -/

/-- The result is not a failure with a rejection. -/
def Unrejected {α : Type} (x : Except Fault α) : Prop :=
  ∀ fault, x = .error fault → ¬ fault.IsRejection

section Results

variable {α β : Type}

theorem unrejected_ok (a : α) : Unrejected (.ok a) := by
  intro fault hfault
  cases hfault

theorem unrejected_error {fault : Fault} (h : fault.aboutRequest = false) :
    Unrejected (.error fault : Except Fault α) := by
  rintro fault' hfault hrejection
  obtain rfl := Except.error.inj hfault
  rw [hrejection.aboutRequest] at h
  cases h

/-- Failures are handed on with their causes. -/
theorem Unrejected.pass_on {x : Except Fault α} (h : Unrejected x) {fault : Fault}
    (hx : x = .error fault) : Unrejected (.error fault : Except Fault β) := by
  rintro fault' hfault
  obtain rfl := Except.error.inj hfault
  exact h fault hx

theorem Spec.validate_unrejected (spec : Spec) : Unrejected spec.validate := fun _ hfault =>
  unrejected_error (α := Unit) (aboutRequest_of_validate hfault).1 _ rfl

theorem Phase.requireCreated_unrejected (owner : String) (phase : Phase) :
    Unrejected (phase.requireCreated owner) := by
  cases phase with
  | created => exact unrejected_ok _
  | running | closed => exact unrejected_error rfl

theorem Phase.requireRunning_unrejected (owner : String) (phase : Phase) :
    Unrejected (phase.requireRunning owner) := by
  cases phase with
  | running => exact unrejected_ok _
  | created | closed => exact unrejected_error rfl

theorem weightTable_unrejected (weights : List Float) : Unrejected (weightTable weights) := by
  unfold weightTable
  split
  · exact unrejected_error rfl
  · exact unrejected_ok _

end Results

namespace Machine

variable {σ α : Type}

/-- Initialization never fails with a rejection. -/
def Admits (m : Machine σ α) : Prop :=
  ∀ context s streams, Unrejected (m.init context s streams).1

/-- Asking for a value never fails with a rejection. -/
def Answers (m : Machine σ α) : Prop :=
  ∀ s, Unrejected (m.generate s).1

end Machine

/-! ## Generators of numbers -/

theorem Grid.machine_admits {ω : Type} (owner : String) {kind : IndexWalk ω}
    (hkind : ∀ spec w, Unrejected (kind.rewind spec w)) : (Grid.machine owner kind).Admits := by
  intro context g streams
  show Unrejected (Grid.init owner kind context g streams).1
  unfold Grid.init
  split
  · rename_i fault hcreated
    exact (Phase.requireCreated_unrejected owner g.phase).pass_on hcreated
  · split
    · rename_i fault hvalidate
      exact g.spec.validate_unrejected.pass_on hvalidate
    · dsimp only
      split
      · rename_i fault hrewind
        exact (hkind g.spec g.walk).pass_on hrewind
      · exact unrejected_ok _

theorem Weighted.machine_admits : Weighted.machine.Admits := by
  intro context w streams
  show Unrejected (Weighted.init context w streams).1
  unfold Weighted.init
  split
  · rename_i fault hcreated
    exact (Phase.requireCreated_unrejected owner w.phase).pass_on hcreated
  · split
    · rename_i fault hvalidate
      exact w.spec.validate_unrejected.pass_on hvalidate
    · dsimp only
      split
      · exact unrejected_error rfl
      · split
        · rename_i fault htable
          exact (weightTable_unrejected _).pass_on htable
        · exact unrejected_ok _

theorem Inverse.machine_admits : Inverse.machine.Admits := by
  intro context g streams
  show Unrejected (Inverse.init context g streams).1
  unfold Inverse.init
  split
  · rename_i fault hcreated
    exact (Phase.requireCreated_unrejected owner g.phase).pass_on hcreated
  · split
    · rename_i fault hvalidate
      exact g.spec.validate_unrejected.pass_on hvalidate
    · dsimp only
      split
      · exact unrejected_ok _
      · exact unrejected_error rfl

namespace Leaf

variable {κ α : Type} {owner : String} {start : κ → κ} {next : κ → Option α × κ}
  {threadSafe : κ → Bool}

theorem machine_admits : (Leaf.machine owner start next threadSafe).Admits := by
  intro context leaf streams
  simp only [Leaf.machine]
  split
  · rename_i fault hcreated
    exact (Phase.requireCreated_unrejected owner leaf.phase).pass_on hcreated
  · exact unrejected_ok _

theorem machine_answers : (Leaf.machine owner start next threadSafe).Answers := by
  rintro ⟨cursor, phase⟩
  simp only [Leaf.machine]
  split
  · rename_i fault hrunning
    exact (Phase.requireRunning_unrejected owner phase).pass_on hrunning
  · exact unrejected_ok _

end Leaf

section Listed

variable {α : Type}

theorem Listed.machine_admits : (Listed.machine (α := α)).Admits := Leaf.machine_admits

theorem Listed.machine_answers : (Listed.machine (α := α)).Answers := Leaf.machine_answers

end Listed

/-! ## Generators over a source -/

section Sources

variable {σ α β : Type} {m : Machine σ α}

theorem Wrapped.init_unrejected (hm : m.Admits) (owner : String) (w : Wrapped σ)
    (context : Context) (streams : Streams) :
    Unrejected (w.init owner m context streams).1 := by
  unfold Wrapped.init
  split
  · rename_i fault hcreated
    exact (Phase.requireCreated_unrejected owner w.phase).pass_on hcreated
  · split
    · rename_i fault source streams' hsource
      exact (hm context w.source streams).pass_on (by rw [hsource])
    · exact unrejected_ok _

theorem Mapped.machine_admits (hm : m.Admits) (owner : String) (f : α → β) :
    (Mapped.machine owner m f).Admits := fun context w streams =>
  Wrapped.init_unrejected hm owner w context streams

theorem Expand.machine_admits (hm : m.Admits) (unique : Bool) (quota : Float) :
    (Expand.machine m unique quota).Admits := by
  intro context e streams
  have hwrapped := Wrapped.init_unrejected hm Expand.owner e.wrapped context streams
  simp only [Expand.machine]
  split
  · rename_i fault wrapped streams' hinit
    exact hwrapped.pass_on (by rw [hinit])
  · exact unrejected_ok _

theorem Head.machine_admits (hm : m.Admits) (size : Nat) : (Head.machine m size).Admits := by
  intro context head streams
  have hwrapped := Wrapped.init_unrejected hm Head.owner head.wrapped context streams
  simp only [Head.machine]
  split
  · rename_i fault wrapped streams' hinit
    exact hwrapped.pass_on (by rw [hinit])
  · exact unrejected_ok _

theorem Unique.machine_admits [BEq α] [Hashable α] (hm : m.Admits) (explicit : Bool) :
    (Unique.machine m explicit).Admits := fun context u streams =>
  Wrapped.init_unrejected hm Unique.owner u.wrapped context streams

theorem Machine.drainInto_unrejected (hm : m.Answers) (values : Array α) (limit : Nat) (s : σ) :
    Unrejected (m.drainInto values limit s).1 := by
  induction limit generalizing values s with
  | zero => exact unrejected_ok _
  | succ limit ih =>
    unfold Machine.drainInto
    split
    · rename_i fault s' hgenerate
      exact (hm s).pass_on (by rw [hgenerate])
    · exact unrejected_ok _
    · exact ih _ _

theorem Machine.readAhead_unrejected (hm : m.Answers) (limit : Nat) (s : σ) :
    Unrejected (m.readAhead limit s).1 := by
  unfold Machine.readAhead
  split
  · rename_i fault s' hdrain
    exact (drainInto_unrejected hm #[] limit s).pass_on (by rw [hdrain])
  · split
    · split
      · rename_i fault s'' hgenerate
        exact (hm _).pass_on (by rw [hgenerate])
      · exact unrejected_ok _
    · exact unrejected_ok _

theorem Individual.weigh_unrejected (weight : α → Float) (items : Array α) :
    Unrejected (Individual.weigh weight items) := by
  unfold Individual.weigh
  split
  · exact unrejected_ok _
  · split
    · rename_i fault htable
      exact (weightTable_unrejected _).pass_on htable
    · exact unrejected_error rfl
    · exact unrejected_ok _

/-- A generator that reads its source into memory admits if its source does and the values are
read without a rejection. -/
theorem Machine.Loads.admits {τ : Type} {M : Machine τ β} {L : Loader σ τ} (hM : M.Loads m L)
    (hadmits : m.Admits) (hload : ∀ context t streams, Unrejected (L.load context t streams).1) :
    M.Admits := by
  intro context t streams
  have hopened := Wrapped.init_unrejected hadmits L.owner (L.wrapped t) context streams
  rcases hM.init_cases context t streams with ⟨fault, hfault, hinit⟩ | ⟨-, hinit⟩
  · rw [hinit]
    exact hopened.pass_on hfault
  · rw [hinit]
    exact hload _ _ _

theorem Individual.machine_admits (hadmits : m.Admits) (hanswers : m.Answers)
    (weight : α → Float) : (Individual.machine m weight).Admits := by
  refine (loads m weight).admits hadmits fun context g streams => ?_
  show Unrejected (materialize m weight context g streams).1
  have hread := Machine.readAhead_unrejected hanswers context.settings.cacheSize g.wrapped.source
  unfold materialize
  split
  · rename_i fault source hfault
    exact hread.pass_on (by rw [hfault])
  · rename_i items truncated source hitems
    split
    · rename_i fault hweigh
      exact (weigh_unrejected weight items).pass_on hweigh
    · exact unrejected_ok _

theorem Sample.choose_unrejected {ν : Type} {d : Distribution ν} {unique : Bool}
    (hd : d.machine.Admits) (hnumbers : ∀ spec, Unrejected (d.numbers spec unique))
    (context : Context) (values : Array α) (streams : Streams) :
    Unrejected (Sample.choose d unique context values streams).1 := by
  have hconstant : (Constant.machine : Machine (Leaf (Constant α)) α).Admits := Leaf.machine_admits
  unfold Sample.choose
  split
  · exact unrejected_ok _
  · dsimp only
    split
    · rename_i fault constant streams' hinit
      exact (hconstant context _ streams).pass_on (by rw [hinit])
    · exact unrejected_ok _
  · split
    · rename_i fault hfault
      exact (hnumbers _).pass_on hfault
    · rename_i numbers hok
      split
      · rename_i fault numbers' streams' hinit
        exact (hd context numbers streams).pass_on (by rw [hinit])
      · exact unrejected_ok _

/-- A sampler admits if the numbers it asks for are granted. -/
theorem Sample.machine_admits {ν : Type} {d : Distribution ν} {unique : Bool}
    (hadmits : m.Admits) (hanswers : m.Answers) (hd : d.machine.Admits)
    (hnumbers : ∀ spec, Unrejected (d.numbers spec unique)) :
    (Sample.machine m d unique).Admits := by
  refine (loads m d unique).admits hadmits fun context s streams => ?_
  show Unrejected (materialize m d unique context s streams).1
  have hread := Machine.readAhead_unrejected hanswers context.settings.cacheSize s.wrapped.source
  unfold materialize
  split
  · rename_i fault source hfault
    exact hread.pass_on (by rw [hfault])
  · rename_i values truncated source hvalues
    have hchoose := choose_unrejected hd hnumbers context values streams
    split
    · rename_i fault streams' hfault
      exact hchoose.pass_on (by rw [hfault])
    · exact unrejected_ok _

end Sources

/-! ## The built-in strategies -/

/-- **Number generators of all kinds are initialized without rejections.** -/
theorem NumberGen.machine_admits : NumberGen.machine.Admits := by
  intro context g streams
  have hgrid (owner : String) : (gridMachine owner).Admits :=
    Grid.machine_admits owner fun _ _ => unrejected_ok _
  cases g with
  | grid owner g => exact hgrid owner context g streams
  | expand unique quota e => exact Expand.machine_admits (hgrid _) unique quota context e streams
  | weighted owner w =>
    exact Mapped.machine_admits Weighted.machine_admits owner id context w streams
  | inverse g => exact Inverse.machine_admits context g streams
  | listed l => exact Leaf.machine_admits context l streams

/-- A strategy that redistributes values of a list does so without rejections. -/
theorem Strategy.applyTo_admits {s : Strategy} {source p : Producer Value} {unique : Bool}
    (hadmits : source.machine.Admits) (hanswers : source.machine.Answers)
    (h : s.applyTo source unique = .ok p) : p.machine.Admits := by
  -- a sampler asks for numbers late, but for nothing that the check has not granted
  have hsample (hcheck : s.check unique = .ok ()) (hs : ∀ weigh, s ≠ .itemWeight weigh) :
      (s.sampleBy source unique).machine.Admits := by
    refine Sample.machine_admits hadmits hanswers NumberGen.machine_admits ?_
    intro spec fault hfault hrejection
    rcases refuses_iff.mp (refuses_of_numbers hfault hrejection) with hno | ⟨⟨weigh, rfl⟩, -⟩
    · rw [hcheck] at hno
      cases hno
    · exact hs weigh rfl
  unfold applyTo at h
  split at h
  · obtain rfl := Except.ok.inj h
    exact Expand.machine_admits hadmits unique _
  · obtain rfl := Except.ok.inj h
    exact Head.machine_admits hadmits _
  · split at h
    · cases h
    · obtain rfl := Except.ok.inj h
      exact Individual.machine_admits hadmits hanswers _
  · rename_i hs
    split at h
    · cases h
    · rename_i hcheck
      obtain rfl := Except.ok.inj h
      exact hsample hcheck hs

end SynthData
