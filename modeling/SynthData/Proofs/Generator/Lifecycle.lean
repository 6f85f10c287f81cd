import SynthData.Proofs.Generator.Running

/-!
# The life of every generator

All kinds of generators live by the same rules, whatever their sources are.  A
call that the phase forbids is refused before anything is asked of the generators
underneath, a call that is allowed leads to no earlier phase, and a generator that
is closed hands the call on to all that it owns.  The handles of a shared source
are the exception: a handle that runs may be initialized again, and closing it
leaves the source alone.

`Kind.parts` says what a generator owns.  A part is not opened up further: its own
kind has the same rules, so they hold at every level of a generator that is put
together.  `Kind.Lawful` holds of every state (`Kind.lawful`), and no call leads
back to an earlier phase (`Kind.call_reaches`).
-/
namespace SynthData

/-! ## Phases -/

namespace Phase

/-- How a generator may get from one phase to another: that of a new one is never
taken again, and that of a closed one is never left. -/
def Reaches : Phase → Phase → Prop
  | .created, _ => True
  | .running, q => q ≠ .created
  | .closed, q => q = .closed

variable {p q r : Phase}

theorem Reaches.refl (p : Phase) : p.Reaches p := by
  cases p <;> simp [Reaches]

theorem Reaches.trans (hpq : p.Reaches q) (hqr : q.Reaches r) : p.Reaches r := by
  cases p <;> cases q <;> simp_all [Reaches]

theorem reaches_closed (p : Phase) : p.Reaches .closed := by
  cases p <;> simp [Reaches]

theorem eq_closed (hnew : p ≠ .created) (hrunning : p ≠ .running) : p = .closed := by
  cases p <;> simp_all

theorem kind_of_requireRunning {owner : String} {fault : Fault}
    (h : p.requireRunning owner = .error fault) : fault.kind = .illegalState := by
  cases p <;> cases h <;> rfl

end Phase

/-! ## Parts -/

/-- A generator that another one owns, in its present state. -/
structure Part where
  {Item : Type}
  producer : Producer Item

/-- A machine in a state, as a part. -/
def Part.of {σ α : Type} (m : Machine σ α) (s : σ) : Part := ⟨⟨σ, m, s⟩⟩

/-- The part after it has been closed. -/
def Part.close (part : Part) : Part :=
  .of part.producer.machine (part.producer.machine.close part.producer.state)

/-- The generators of the fields of a record. -/
def Fields.parts : {σ : Type} → Fields σ → σ → List Part
  | _, nil, _ => []
  | _, cons _ m rest, (s, states) => .of m s :: rest.parts states

/-- What chooses among the values that a sampler has read. -/
def Sample.chooserParts {ν α : Type} (d : Distribution ν) : Chooser ν α → List Part
  | .nothing => []
  | .single constant => [.of Constant.machine constant]
  | .positions numbers => [.of d.machine numbers]

namespace Kind

/-- The generators that a generator owns: its source, its fields, or what makes
its steps and positions once it has been made. -/
def parts : {σ α : Type} → Kind σ α → σ → List Part
  | _, _, leaf .., _ => []
  | _, _, mapped _ source _, w => [.of source w.source]
  | _, _, expand source _ _, e => [.of source e.wrapped.source]
  | _, _, @distinct _ _ _ _ source _, u => [.of source u.wrapped.source]
  | _, _, head source _, h => [.of source h.wrapped.source]
  | _, _, shared source, s => [.of source s.2.source]
  | _, _, handle source _, s => [.of source s.shared.source]
  | _, _, record fields, r => fields.parts r.states
  | _, _, grid .., _ => []
  | _, _, weighted, _ => []
  | _, _, inverse, _ => []
  | _, _, days _ d _, g => (g.steps.map (Part.of d.machine)).toList
  | _, _, instants range d t unique, g =>
    .of (Days.machine range.days d unique) g.days :: (g.times.map (Part.of t.machine)).toList
  | _, _, sample source d _, s => .of source s.wrapped.source :: Sample.chooserParts d s.chooser
  | _, _, individual source _, g => [.of source g.wrapped.source]

/-- The generator is a handle of a source that others may use as well. -/
def IsHandle : {σ α : Type} → Kind σ α → Prop
  | _, _, shared .. | _, _, handle .. => True
  | _, _, leaf .. | _, _, mapped .. | _, _, expand .. | _, _, distinct .. | _, _, head ..
  | _, _, record .. | _, _, grid .. | _, _, weighted | _, _, inverse | _, _, days ..
  | _, _, instants .. | _, _, sample .. | _, _, individual .. => False

variable {σ α : Type}

/-- A call is refused as one that the phase forbids, and nothing is taken from the
parts or from the streams. -/
structure Refused (k : Kind σ α) (s : σ) (streams : Streams)
    (result : Except Fault Unit × σ × Streams) : Prop where
  answer : ∃ fault, result.1 = .error fault ∧ fault.kind = .illegalState
  phase_eq : k.machine.phase result.2.1 = k.machine.phase s
  parts_eq : k.parts result.2.1 = k.parts s
  streams_eq : result.2.2 = streams

/-- **The rules of life**, in a state. -/
structure Lawful (k : Kind σ α) (s : σ) : Prop where
  /-- Only a running generator generates; any other one does not move at all. -/
  generate_refused : k.machine.phase s ≠ .running →
    ∃ fault, k.machine.generate s = (.error fault, s) ∧ fault.kind = .illegalState
  /-- Only a new generator is initialized, a running handle apart. -/
  init_refused : k.machine.phase s ≠ .created → (k.IsHandle → k.machine.phase s = .closed) →
    ∀ context streams, k.Refused s streams (k.machine.init context s streams)
  /-- Nothing happens to a running handle that is initialized. -/
  init_again : k.IsHandle → k.machine.phase s = .running →
    ∀ context streams, k.machine.init context s streams = (.ok (), s, streams)
  /-- A closed generator does not start over. -/
  reset_refused : k.machine.phase s = .closed →
    ∀ streams, k.Refused s streams (k.machine.reset s streams)
  /-- Closing always ends a life. -/
  close_phase : k.machine.phase (k.machine.close s) = .closed
  /-- All parts are closed with their owner, unless the owner is a handle. -/
  close_parts : ¬ k.IsHandle → k.parts (k.machine.close s) = (k.parts s).map .close
  /-- A shared source is left as it is. -/
  close_shared : k.IsHandle → k.parts (k.machine.close s) = k.parts s

end Kind

section

variable {σ α : Type}

/-! ## Calls that are refused -/

namespace Kind

variable {k : Kind σ α} {s : σ}

/-- A call that leaves the state as it is and says why. -/
theorem Refused.of_eq {streams : Streams} {result : Except Fault Unit × σ × Streams}
    {fault : Fault} (h : result = (.error fault, s, streams)) (hkind : fault.kind = .illegalState) :
    k.Refused s streams result := by
  subst h
  exact ⟨⟨fault, rfl, hkind⟩, rfl, rfl, rfl⟩

theorem init_refused (k : Kind σ α) {s : σ} (h : k.machine.phase s ≠ .created)
    (hhandle : k.IsHandle → k.machine.phase s = .closed) (context : Context) (streams : Streams) :
    k.Refused s streams (k.machine.init context s streams) := by
  cases k with
  | leaf owner start next threadSafe =>
    obtain ⟨fault, hfault, hkind⟩ := s.phase.requireCreated_error owner h
    exact .of_eq (by simp [machine, Leaf.machine, hfault]) hkind
  | mapped owner source f =>
    obtain ⟨fault, hinit, hkind⟩ := Wrapped.init_refused owner source h context streams
    exact .of_eq hinit hkind
  | expand source unique quota =>
    obtain ⟨fault, hinit, hkind⟩ := Wrapped.init_refused Expand.owner source h context streams
    exact .of_eq (by simp [machine, Expand.machine, hinit]) hkind
  | distinct source explicit =>
    -- the limit is changed before the call is refused
    obtain ⟨fault, hinit, hkind⟩ := Wrapped.init_refused Unique.owner source h context streams
    simp only [machine, Unique.machine, hinit]
    exact ⟨⟨fault, rfl, hkind⟩, rfl, rfl, rfl⟩
  | head source size =>
    obtain ⟨fault, hinit, hkind⟩ := Wrapped.init_refused Head.owner source h context streams
    exact .of_eq (by simp [machine, Head.machine, hinit]) hkind
  | shared source =>
    obtain ⟨phase, shared⟩ := s
    obtain rfl : phase = .closed := hhandle trivial
    exact .of_eq rfl rfl
  | handle source number =>
    obtain ⟨shared, handles⟩ := s
    have hclosed : handles.getD number .closed = .closed := hhandle trivial
    exact .of_eq (by simp only [machine, SharedHandles.machine, SharedHandles.phase, hclosed,
      Shared.init, SharedHandles.set_phase hclosed]; rfl) rfl
  | record fields =>
    obtain ⟨fault, hfault, hkind⟩ := s.phase.requireCreated_error Record.owner h
    exact .of_eq (by simp [machine, Record.machine, Record.init, hfault]) hkind
  | grid owner walk =>
    obtain ⟨fault, hfault, hkind⟩ := s.phase.requireCreated_error owner h
    exact .of_eq (by simp [machine, Grid.machine, Grid.init, hfault]) hkind
  | weighted =>
    obtain ⟨fault, hfault, hkind⟩ := s.phase.requireCreated_error Weighted.owner h
    exact .of_eq (by simp [machine, Weighted.machine, Weighted.init, hfault]) hkind
  | inverse =>
    obtain ⟨fault, hfault, hkind⟩ := s.phase.requireCreated_error Inverse.owner h
    exact .of_eq (by simp [machine, Inverse.machine, Inverse.init, hfault]) hkind
  | days range d unique =>
    obtain ⟨fault, hfault, hkind⟩ := s.phase.requireCreated_error Days.owner h
    exact .of_eq (by simp [machine, Days.machine, Days.init, hfault]) hkind
  | instants range d t unique =>
    obtain ⟨fault, hfault, hkind⟩ := s.phase.requireCreated_error Instants.owner h
    exact .of_eq (by simp [machine, Instants.machine, Instants.init, hfault]) hkind
  | sample source d unique =>
    obtain ⟨fault, hinit, hkind⟩ := (Sample.loads source d unique).init_refused h context streams
    exact .of_eq hinit hkind
  | individual source weight =>
    obtain ⟨fault, hinit, hkind⟩ := (Individual.loads source weight).init_refused h context streams
    exact .of_eq hinit hkind

/-- A running handle may be initialized again, and nothing happens. -/
theorem init_again (k : Kind σ α) {s : σ} (hhandle : k.IsHandle)
    (h : k.machine.phase s = .running) (context : Context) (streams : Streams) :
    k.machine.init context s streams = (.ok (), s, streams) := by
  cases k with
  | shared source =>
    obtain ⟨phase, shared⟩ := s
    obtain rfl : phase = .running := h
    rfl
  | handle source number =>
    obtain ⟨shared, handles⟩ := s
    have hrunning : handles.getD number .closed = .running := h
    simp only [machine, SharedHandles.machine, SharedHandles.phase, hrunning, Shared.init,
      SharedHandles.set_phase hrunning]
  | _ => exact hhandle.elim

theorem reset_refused (k : Kind σ α) {s : σ} (h : k.machine.phase s = .closed)
    (streams : Streams) : k.Refused s streams (k.machine.reset s streams) := by
  cases k with
  | leaf owner start next threadSafe =>
    obtain ⟨cursor, phase⟩ := s
    obtain rfl : phase = .closed := h
    exact .of_eq rfl rfl
  | mapped owner source f =>
    have hreset := Wrapped.reset_refused owner source h streams
    exact .of_eq (by simp [machine, Mapped.machine, hreset]; rfl) rfl
  | expand source unique quota =>
    have hreset := Wrapped.reset_refused Expand.owner source h streams
    exact .of_eq (by simp [machine, Expand.machine, hreset]; rfl) rfl
  | distinct source explicit =>
    -- the values that were passed on are forgotten before the call is refused
    have hreset := Wrapped.reset_refused Unique.owner source h streams
    simp only [machine, Unique.machine, hreset]
    exact ⟨⟨_, rfl, rfl⟩, rfl, rfl, rfl⟩
  | head source size =>
    have hreset := Wrapped.reset_refused Head.owner source h streams
    simp only [machine, Head.machine, hreset]
    exact ⟨⟨_, rfl, rfl⟩, rfl, rfl, rfl⟩
  | shared source =>
    obtain ⟨phase, shared⟩ := s
    obtain rfl : phase = .closed := h
    exact .of_eq rfl rfl
  | handle source number =>
    obtain ⟨shared, handles⟩ := s
    have hclosed : handles.getD number .closed = .closed := h
    exact .of_eq (by simp only [machine, SharedHandles.machine, SharedHandles.phase, hclosed,
      Shared.reset, SharedHandles.set_phase hclosed]; rfl) rfl
  | record fields =>
    obtain ⟨states, phase⟩ := s
    obtain rfl : phase = .closed := h
    exact .of_eq rfl rfl
  | grid owner walk =>
    obtain ⟨spec, walk', rng, phase⟩ := s
    obtain rfl : phase = .closed := h
    exact .of_eq rfl rfl
  | weighted =>
    obtain ⟨spec, weight, table, count, rng, phase⟩ := s
    obtain rfl : phase = .closed := h
    exact .of_eq rfl rfl
  | inverse =>
    obtain ⟨spec, function, least, mass, rng, phase⟩ := s
    obtain rfl : phase = .closed := h
    exact .of_eq rfl rfl
  | days range d unique =>
    obtain ⟨steps, phase⟩ := s
    obtain rfl : phase = .closed := h
    exact .of_eq rfl rfl
  | instants range d t unique =>
    obtain ⟨days, times, phase⟩ := s
    obtain rfl : phase = .closed := h
    exact .of_eq rfl rfl
  | sample source d unique =>
    exact .of_eq ((Sample.loads source d unique).reset_refused h streams) rfl
  | individual source weight =>
    exact .of_eq ((Individual.loads source weight).reset_refused h streams) rfl

end Kind

/-! ## Calls that are allowed -/

namespace Kind

theorem phase_generate (k : Kind σ α) (s : σ) :
    k.machine.phase (k.machine.generate s).2 = k.machine.phase s := by
  by_cases h : k.machine.phase s = .running
  · rw [k.staysRunning.generate s h, h]
  · obtain ⟨owner, fault, -, hgenerate⟩ := k.generate_refused h
    rw [hgenerate]

theorem phase_reset (k : Kind σ α) {s : σ} (h : k.machine.phase s ≠ .created)
    (streams : Streams) :
    k.machine.phase (k.machine.reset s streams).2.1 = k.machine.phase s := by
  by_cases hrunning : k.machine.phase s = .running
  · rw [k.staysRunning.reset s streams hrunning, hrunning]
  · exact (k.reset_refused (Phase.eq_closed h hrunning) streams).phase_eq

/-! ## Closing -/

theorem phase_close (k : Kind σ α) (s : σ) : k.machine.phase (k.machine.close s) = .closed := by
  cases k with
  | handle source number =>
    -- a handle that was never made counts as closed from the start
    show (s.handles.setIfInBounds number .closed).getD number .closed = .closed
    by_cases hlt : number < s.handles.size <;> simp [Array.getD_eq_getD_getElem?, hlt]
  | _ => rfl

end Kind

theorem Fields.parts_close (fields : Fields σ) (states : σ) :
    fields.parts (fields.close states) = (fields.parts states).map .close := by
  induction fields with
  | nil => rfl
  | cons name m rest ih => exact congrArg (List.cons _) (ih states.2)

theorem Sample.parts_closeChooser {ν : Type} (d : Distribution ν) (chooser : Chooser ν α) :
    chooserParts d (closeChooser d chooser) = (chooserParts d chooser).map .close := by
  cases chooser <;> rfl

namespace Kind

theorem parts_close (k : Kind σ α) (s : σ) (h : ¬ k.IsHandle) :
    k.parts (k.machine.close s) = (k.parts s).map .close := by
  cases k with
  | shared | handle => exact absurd trivial h
  | record fields => exact fields.parts_close s.states
  | days range d unique =>
    obtain ⟨steps, phase⟩ := s
    cases steps <;> rfl
  | instants range d t unique =>
    obtain ⟨days, times, phase⟩ := s
    cases times <;> rfl
  | sample source d unique => exact congrArg (List.cons _) (Sample.parts_closeChooser d s.chooser)
  | _ => rfl

theorem parts_close_handle (k : Kind σ α) (s : σ) (h : k.IsHandle) :
    k.parts (k.machine.close s) = k.parts s := by
  cases k with
  | shared | handle => rfl
  | _ => exact h.elim

/-! ## Every generator, in every run -/

/-- **Every state obeys the rules of life**, whichever kind of generator it belongs
to. -/
theorem lawful (k : Kind σ α) (s : σ) : k.Lawful s where
  generate_refused := fun h => by
    obtain ⟨owner, fault, hfault, hgenerate⟩ := k.generate_refused h
    exact ⟨fault, hgenerate, Phase.kind_of_requireRunning hfault⟩
  init_refused := fun h hhandle context streams => k.init_refused h hhandle context streams
  init_again := fun hhandle h context streams => k.init_again hhandle h context streams
  reset_refused := fun h streams => k.reset_refused h streams
  close_phase := k.phase_close s
  close_parts := fun h => k.parts_close s h
  close_shared := fun h => k.parts_close_handle s h

/-- Apart from closing, a call does not change the phase of a generator that is no
longer new. -/
theorem phase_init (k : Kind σ α) {s : σ} (h : k.machine.phase s ≠ .created) (context : Context)
    (streams : Streams) :
    k.machine.phase (k.machine.init context s streams).2.1 = k.machine.phase s := by
  by_cases hhandle : k.IsHandle ∧ k.machine.phase s = .running
  · rw [k.init_again hhandle.1 hhandle.2 context streams]
  · refine (k.init_refused h (fun his => ?_) context streams).phase_eq
    exact Phase.eq_closed h (fun hrunning => hhandle ⟨his, hrunning⟩)

/-- **No call leads back to an earlier phase.** -/
theorem call_reaches (k : Kind σ α) (r : Run σ α) (c : Machine.Call) :
    (k.machine.phase r.state).Reaches (k.machine.phase (k.machine.call r c).state) := by
  by_cases hnew : k.machine.phase r.state = .created
  · rw [hnew]
    exact trivial
  · cases c with
    | init context =>
      show Phase.Reaches _ (k.machine.phase (k.machine.init context r.state r.streams).2.1)
      rw [k.phase_init hnew]
      exact .refl _
    | generate =>
      rw [(Machine.call_generate r).1, k.phase_generate]
      exact .refl _
    | reset =>
      show Phase.Reaches _ (k.machine.phase (k.machine.reset r.state r.streams).2.1)
      rw [k.phase_reset hnew]
      exact .refl _
    | close =>
      show Phase.Reaches _ (k.machine.phase (k.machine.close r.state))
      rw [k.phase_close]
      exact Phase.reaches_closed _

/-- **The life of a generator.**  Whatever is called on it, and however often: its
phase moves forward only, from whichever state the calls begin, and the state they
end in obeys the rules of life. -/
theorem life_of_run (k : Kind σ α) (s : σ) (streams : Streams) (calls : List Machine.Call) :
    (k.machine.phase s).Reaches (k.machine.phase (k.machine.run calls (.start s streams)).state) ∧
      k.Lawful (k.machine.run calls (.start s streams)).state :=
  ⟨Machine.run_induction (m := k.machine)
    (P := fun r => (k.machine.phase s).Reaches (k.machine.phase r.state))
    (fun r c hr => hr.trans (k.call_reaches r c)) (.refl _) calls, k.lawful _⟩

end Kind
end
end SynthData
