import SynthData.Proofs.Depletion.Chosen
import SynthData.Proofs.Depletion.Numbers
import SynthData.Proofs.Depletion.Several

/-!
# Generator trees run out for good

A `Node` is a generator together with what the users of other handles may do to its
state between its calls: nothing, unless there is a shared source somewhere in it.
`Tree` says which nodes can be built from the kinds of generators, from the leaves
up.  Each kind passes on from its parts that running out is for good, so by
induction every tree has this property (`Tree.stays_dry`).
-/
namespace SynthData

/-- A generator, with what may happen to its state between its calls. -/
structure Node (α : Type) where
  producer : Producer α
  meanwhile : producer.State → producer.State → Prop

namespace Node

variable {σ α : Type}

/-- A generator whose state nobody else changes. -/
def alone (m : Machine σ α) (s : σ) : Node α := ⟨⟨σ, m, s⟩, Machine.Alone⟩

/-- Something happens to one of several named generators. -/
def SomeField : (entries : List (String × Node Value)) →
    let State := (FieldList.ofList (entries.map fun entry => (entry.1, entry.2.producer))).State
    State → State → Prop
  | [] => Machine.Alone
  | (_, node) :: rest => fun s s' =>
    node.meanwhile s.1 s'.1 ∧ s'.2 = s.2 ∨ s'.1 = s.1 ∧ SomeField rest s.2 s'.2

/-- The record generator of named generators. -/
def record (entries : List (String × Node Value)) : Node Value :=
  ⟨(FieldList.ofList (entries.map fun entry => (entry.1, entry.2.producer))).producer,
    Record.Meanwhile (SomeField entries)⟩

/-- Once it has run out, it hands out nothing before the next reset. -/
def Settled (node : Node α) : Prop :=
  node.producer.machine.Settled node.meanwhile node.producer.state

end Node

/-- **The generators that can be built.**  An iterator that has ended must not go on
again; apart from that the parameters are arbitrary. -/
inductive Tree : {α : Type} → Node α → Prop where
  | always {α : Type} (value : α) : Tree (.alone Constant.machine (Constant.always value))
  | single {α : Type} (value : α) : Tree (.alone Constant.machine (Constant.single value))
  | listed {α : Type} (values : Array α) : Tree (.alone Listed.machine (Listed.new values))
  | iterated {α : Type} (values : Nat → Nat → Option α)
    (hfused : ∀ pass i, values pass i = none → values pass (i + 1) = none) :
    Tree (.alone (Iterated.machine values) Iterated.new)
  | numbers (g : NumberGen) : Tree (.alone NumberGen.machine g)
  | grid (owner : String) (g : Grid Walk) : Tree (.alone (Grid.machine owner Walk.kind) g)
  | weighted (w : Weighted) : Tree (.alone Weighted.machine w)
  | inverse (g : Inverse) : Tree (.alone Inverse.machine g)
  | days {ν : Type} (range : DateRange) (d : Distribution ν) (unique : Bool) :
    (∀ spec numbers, d.numbers spec unique = .ok numbers → Tree (.alone d.machine numbers)) →
    Tree (.alone (Days.machine range d unique) .new)
  | instants {ν τ : Type} (range : InstantRange) (d : Distribution ν) (t : Distribution τ)
    (unique : Bool) :
    (∀ spec numbers, d.numbers spec unique = .ok numbers → Tree (.alone d.machine numbers)) →
    (∀ spec numbers, t.numbers spec unique = .ok numbers → Tree (.alone t.machine numbers)) →
    Tree (.alone (Instants.machine range d t unique) .new)
  | mapped {α β : Type} {node : Node α} (owner : String) (f : α → β) : Tree node →
    Tree ⟨⟨_, Mapped.machine owner node.producer.machine f, .new node.producer.state⟩,
      Wrapped.Meanwhile node.meanwhile⟩
  | expand {α : Type} {node : Node α} (capacity : Option Nat) (unique : Bool) (quota : Float) :
    Tree node →
    Tree ⟨⟨_, Expand.machine node.producer.machine unique quota,
      .new node.producer.state capacity⟩, Expand.Meanwhile node.meanwhile⟩
  | distinct {α : Type} [BEq α] [Hashable α] {node : Node α} (limit : Option Nat) : Tree node →
    Tree ⟨⟨Unique _ α, Unique.machine node.producer.machine limit.isSome,
      .new node.producer.state limit⟩, Unique.Meanwhile node.meanwhile⟩
  | head {α : Type} {node : Node α} (size : Nat) : Tree node →
    Tree ⟨⟨_, Head.machine node.producer.machine size, .new node.producer.state⟩,
      Head.Meanwhile node.meanwhile⟩
  | sample {ν α : Type} {node : Node α} (d : Distribution ν) (unique : Bool) :
    (∀ spec numbers, d.numbers spec unique = .ok numbers → Tree (.alone d.machine numbers)) →
    Tree node →
    Tree ⟨⟨_, Sample.machine node.producer.machine d unique, .new node.producer.state⟩,
      Sample.Meanwhile node.meanwhile⟩
  | individual {α : Type} {node : Node α} (weight : α → Float) : Tree node →
    Tree ⟨⟨_, Individual.machine node.producer.machine weight, .new node.producer.state⟩,
      Individual.Meanwhile node.meanwhile⟩
  | shared {α : Type} {node : Node α} : Tree node →
    Tree ⟨⟨_, Shared.machine node.producer.machine, (.created, .new node.producer.state)⟩,
      Shared.Meanwhile node.meanwhile⟩
  | handle {α : Type} {node : Node α} (number : Nat) : Tree node →
    Tree ⟨⟨_, SharedHandles.machine node.producer.machine number, .new node.producer.state⟩,
      SharedHandles.Meanwhile node.producer.machine node.meanwhile number⟩
  | record (entries : List (String × Node Value)) : (∀ entry ∈ entries, Tree entry.2) →
    Tree (.record entries)

/-- Fields settle together if each of them does. -/
theorem Node.fields_settle (entries : List (String × Node Value))
    (h : ∀ entry ∈ entries, entry.2.Settled) :
    let list := FieldList.ofList (entries.map fun entry => (entry.1, entry.2.producer))
    ∃ inv dry, list.fields.Settle (SomeField entries) inv dry ∧ inv list.states := by
  induction entries with
  | nil => exact ⟨_, _, .nil, trivial⟩
  | cons entry rest ih =>
    obtain ⟨name, node⟩ := entry
    obtain ⟨inv, dry, hrest, hinv⟩ := ih fun entry hentry => h entry (List.mem_cons_of_mem _ hentry)
    have hnode : node.Settled := h (name, node) List.mem_cons_self
    exact ⟨_, _, .cons name (Machine.settles node.producer.machine node.meanwhile) hrest,
      hnode, hinv⟩

namespace Tree

variable {α : Type} {node : Node α}

theorem settled (h : Tree node) : node.Settled := by
  -- each kind takes the property over from its parts, of which nothing else is known
  induction h with
  | always value => exact Constant.settles.settled trivial
  | single value => exact Constant.settles.settled trivial
  | listed values => exact Listed.settles.settled trivial
  | iterated values hfused => exact (Iterated.settles hfused).settled trivial
  | numbers g => exact g.settled
  | grid owner g => exact Grid.settles.settled trivial
  | weighted w => exact Weighted.settles.settled trivial
  | inverse g => exact Inverse.settles.settled trivial
  | days range d unique _ hd =>
    exact (Days.settles (Machine.settles _ _) hd).settled nofun
  | instants range d t unique _ _ hd ht =>
    exact (Instants.settles (Days.settles (Machine.settles _ _) hd)
      (Machine.settles _ _) ht).settled ⟨nofun, nofun⟩
  | mapped owner f _ ih => exact (Mapped.settles (Machine.settles _ _)).settled ih
  | expand capacity unique quota _ ih =>
    exact (Expand.settles (Machine.settles _ _)).settled ⟨ih, fun _ _ => trivial⟩
  | distinct limit _ ih => exact (Unique.settles (Machine.settles _ _)).settled ih
  | head size _ ih => exact (Head.settles (Machine.settles _ _)).settled ih
  | sample d unique _ _ hd ih =>
    exact (Sample.settles (Machine.settles _ _) (Machine.settles _ _) hd).settled ⟨ih, trivial⟩
  | individual weight _ ih =>
    exact (Individual.settles (Machine.settles _ _)).settled ⟨ih, nofun⟩
  | shared _ ih => exact (Shared.settles (Machine.settles _ _)).settled ih
  | handle number _ ih => exact (SharedHandles.settles (Machine.settles _ _)).settled ih
  | record entries _ ih =>
    obtain ⟨inv, dry, hfields, hinv⟩ := Node.fields_settle entries ih
    exact (Record.settles hfields).settled hinv

/-- **A generator that has run out hands out nothing before it is reset**, whatever
else is done with it and, if it has a part in a shared source, by the other users of
that source. -/
theorem stays_dry (h : Tree node) {s t : node.producer.State}
    (hs : node.producer.machine.Leads node.meanwhile (fun _ => True) node.producer.state s)
    (hnone : (node.producer.machine.generate s).1 = .ok none)
    (ht : node.producer.machine.Leads node.meanwhile (· ≠ .reset)
      (node.producer.machine.generate s).2 t)
    (v : α) : (node.producer.machine.generate t).1 ≠ .ok (some v) :=
  h.settled s hs hnone t ht v

/-- A handle that has come to the end of a list, while another handle is made,
initialized by a reset, and asked. -/
theorem stays_dry_handle :
    let m := SharedHandles.machine (Listed.machine (α := Nat))
    let streams := Streams.start fun _ => .ofSeed 0
    let s := (m 0).stateAfter .generate
      ((m 0).stateAfter (.init ⟨{}, 0⟩) (.new (Listed.new #[10])) streams) streams
    let t := (m 1).stateAfter .generate
      ((m 1).stateAfter .reset ((m 0).generate s).2.clone streams) streams
    ((m 0).generate s).1 = .ok none ∧ ∀ v, ((m 0).generate t).1 ≠ .ok (some v) := by
  intro m streams s t
  have h : Tree ⟨⟨_, m 0, .new (Listed.new #[10])⟩,
      SharedHandles.Meanwhile Listed.machine Machine.Alone 0⟩ :=
    .handle 0 (.listed #[10])
  exact ⟨rfl, h.stays_dry (.call .generate streams (.call (.init ⟨{}, 0⟩) streams .start trivial)
    trivial) rfl (.other (.other (.other .start .clone) (.call 1 (by decide) .reset streams))
      (.call 1 (by decide) .generate streams))⟩

end Tree
end SynthData
