import SynthData.Proofs.Depletion.Basic
import SynthData.Proofs.Generator.Shared

/-!
# Handles and records that run out for good

A handle has run out when the shared source has, whoever asked it last: no use of
any handle starts the source over (`Shared.Used`).  A record has run out when one of
its fields has, although the fields before that one go on.
-/
namespace SynthData

section

variable {σ α : Type} {m : Machine σ α} {meanwhile : σ → σ → Prop} {inv dry : σ → Prop}

/-! ## Shared sources -/

namespace Shared

/-- Something happens to a source that has a single handle. -/
def Meanwhile (meanwhile : σ → σ → Prop) (s s' : Phase × Shared σ) : Prop :=
  meanwhile s.2.source s'.2.source ∧ s' = (s.1, { s.2 with source := s'.2.source })

/-- What the users of a shared source may do to it. -/
inductive Used (m : Machine σ α) (s : σ) : σ → Prop where
  | untouched : Used m s s
  | opened (context : Context) (streams : Streams) : Used m s (m.init context s streams).2.1
  | asked : Used m s (m.generate s).2

theorem Used.keeps_inv (hm : m.Settles meanwhile inv dry) {s s' : σ} (h : Used m s s')
    (hs : inv s) : inv s' := by
  cases h with
  | untouched => exact hs
  | opened context streams => exact hm.init context s streams hs
  | asked => exact hm.generate s hs

theorem Used.keeps_dry (hm : m.Settles meanwhile inv dry) {s s' : σ} (h : Used m s s') (hs : inv s)
    (hdry : dry s) : dry s' := by
  cases h with
  | untouched => exact hdry
  | opened context streams => exact hm.init_dry context s streams hs hdry
  | asked => exact hm.generate_dry s hs hdry

variable {handle : Phase} {shared : Shared σ}

theorem init_used (context : Context) (streams : Streams) :
    Used m shared.source (init m context handle shared streams).2.2.1.source := by
  cases handle with
  | running | closed => exact .untouched
  | created =>
    unfold init
    by_cases hinitialized : shared.initialized
    · simp only [if_pos hinitialized]
      exact .untouched
    · simp only [if_neg hinitialized]
      have hused := Used.opened (m := m) (s := shared.source) context streams
      rcases hinit : m.init context shared.source streams with ⟨fault | _, source, streams'⟩
      all_goals
        rw [hinit] at hused
        exact hused

theorem reset_used (streams : Streams) :
    Used m shared.source (reset m handle shared streams).2.2.1.source := by
  cases handle with
  | running | closed => exact .untouched
  | created => exact init_used _ _

theorem generate_used : Used m shared.source (generate m handle shared).2.source := by
  cases handle with
  | created | closed => exact .untouched
  | running => exact .asked

theorem ends (hm : m.Settles meanwhile inv dry) (hs : inv shared.source)
    (h : (generate m handle shared).1 = .ok none) :
    handle = .running ∧ dry (generate m handle shared).2.source := by
  cases handle with
  | created | closed => cases h
  | running => exact ⟨rfl, hm.ends shared.source hs h⟩

theorem answer (hm : m.Settles meanwhile inv dry) (hs : inv shared.source)
    (hdry : dry shared.source) (v : α) : (generate m handle shared).1 ≠ .ok (some v) := by
  cases handle with
  | created | closed => nofun
  | running => exact hm.answer shared.source v hs hdry

theorem settles (hm : m.Settles meanwhile inv dry) :
    (machine m).Settles (Meanwhile meanwhile) (fun s => inv s.2.source)
      (fun s => s.1 ≠ .created ∧ dry s.2.source) where
  init := fun context _ streams hs => (init_used context streams).keeps_inv hm hs
  generate := fun _ hs => generate_used.keeps_inv hm hs
  reset := fun _ streams hs => (reset_used streams).keeps_inv hm hs
  close := fun _ hs => hs
  meanwhile_inv := fun _ _ hs h => hm.meanwhile_inv _ _ hs h.1
  ends := by
    rintro ⟨handle, shared⟩ hs h
    obtain ⟨rfl, hdry⟩ := ends hm hs h
    exact ⟨nofun, hdry⟩
  answer := fun _ v hs hdry => answer hm hs hdry.2 v
  init_dry := by
    rintro context ⟨handle, shared⟩ streams hs ⟨hphase, hdry⟩
    refine ⟨?_, (init_used context streams).keeps_dry hm hs hdry⟩
    cases handle with
    | created => exact absurd rfl hphase
    | running | closed => nofun
  generate_dry := fun _ hs hdry => ⟨hdry.1, generate_used.keeps_dry hm hs hdry.2⟩
  close_dry := fun _ _ hdry => ⟨nofun, hdry.2⟩
  meanwhile_dry := fun _ _ hs hdry h =>
    ⟨by rw [h.2]; exact hdry.1, hm.meanwhile_dry _ _ hs hdry.2 h.1⟩

end Shared

namespace SharedHandles

/-- What happens to a shared source and its handles while one of the handles is not
used: another handle is made, a call is made on another one, or something happens to
the source itself. -/
inductive Meanwhile (m : Machine σ α) (meanwhile : σ → σ → Prop) (number : Nat)
    (s : SharedHandles σ) : SharedHandles σ → Prop where
  | clone : Meanwhile m meanwhile number s s.clone
  | call (other : Nat) (hother : other ≠ number) (c : Machine.Call) (streams : Streams) :
    Meanwhile m meanwhile number s ((machine m other).stateAfter c s streams)
  | source (source' : σ) (h : meanwhile s.shared.source source') :
    Meanwhile m meanwhile number s { s with shared := { s.shared with source := source' } }

/-- A handle that is not new, on a source that has run out. -/
structure Dry (dry : σ → Prop) (number : Nat) (s : SharedHandles σ) : Prop where
  lt : number < s.handles.size
  phase : s.phase number ≠ .created
  source : dry s.shared.source

variable {number : Nat} {s s' : SharedHandles σ}

/-- A call on a handle uses the source and changes the phase of that handle only. -/
theorem call_used (m : Machine σ α) (number : Nat) (c : Machine.Call) (s : SharedHandles σ)
    (streams : Streams) :
    Shared.Used m s.shared.source ((machine m number).stateAfter c s streams).shared.source ∧
      ∃ phase, ((machine m number).stateAfter c s streams).handles =
        s.handles.setIfInBounds number phase := by
  cases c with
  | init context => exact ⟨Shared.init_used context streams, _, rfl⟩
  | generate =>
    rw [Machine.stateAfter, (Machine.call_generate _).1]
    exact ⟨Shared.generate_used, s.phase number, (set_phase rfl).symm⟩
  | reset => exact ⟨Shared.reset_used streams, _, rfl⟩
  | close => exact ⟨.untouched, _, rfl⟩

theorem call_inv (hm : m.Settles meanwhile inv dry) (c : Machine.Call) (streams : Streams)
    (hs : inv s.shared.source) :
    inv ((machine m number).stateAfter c s streams).shared.source :=
  (call_used m number c s streams).1.keeps_inv hm hs

/-- Calls on other handles leave a handle and a source that has run out as they are. -/
theorem Dry.call (hm : m.Settles meanwhile inv dry) {other : Nat} (hother : other ≠ number)
    (c : Machine.Call) (streams : Streams) (hs : inv s.shared.source) (hdry : s.Dry dry number) :
    ((machine m other).stateAfter c s streams).Dry dry number := by
  obtain ⟨hused, phase, hhandles⟩ := call_used m other c s streams
  refine ⟨by rw [hhandles]; simpa using hdry.lt, ?_, hused.keeps_dry hm hs hdry.source⟩
  show (((machine m other).stateAfter c s streams).handles).getD number .closed ≠ .created
  rw [hhandles, Array.getD_eq_getD_getElem?, Array.getElem?_setIfInBounds_ne hother,
    ← Array.getD_eq_getD_getElem?]
  exact hdry.phase

theorem Dry.clone (hdry : s.Dry dry number) : s.clone.Dry dry number := by
  refine ⟨Nat.lt_of_lt_of_le hdry.lt (by simp [SharedHandles.clone]), ?_, hdry.source⟩
  show (s.handles.push .created).getD number .closed ≠ .created
  rw [Array.getD_eq_getD_getElem?, Array.getElem?_push_lt hdry.lt,
    ← Array.getElem?_eq_getElem hdry.lt, ← Array.getD_eq_getD_getElem?]
  exact hdry.phase

theorem settles (hm : m.Settles meanwhile inv dry) :
    (machine m number).Settles (Meanwhile m meanwhile number) (fun s => inv s.shared.source)
      (Dry dry number) where
  init := fun context _ streams hs => (Shared.init_used context streams).keeps_inv hm hs
  generate := fun _ hs => Shared.generate_used.keeps_inv hm hs
  reset := fun _ streams hs => (Shared.reset_used streams).keeps_inv hm hs
  close := fun _ hs => hs
  meanwhile_inv := by
    rintro s s' hs (_ | ⟨other, hother, c, streams⟩ | ⟨source', h⟩)
    · exact hs
    · exact call_inv hm c streams hs
    · exact hm.meanwhile_inv _ _ hs h
  ends := by
    intro s hs h
    obtain ⟨hphase, hdry⟩ := Shared.ends hm hs h
    refine ⟨Nat.lt_of_not_le fun hle => ?_, ?_, hdry⟩
    · have hle : s.handles.size ≤ number := hle
      rw [Array.getD_eq_getD_getElem?, Array.getElem?_eq_none hle] at hphase
      cases hphase
    · show s.handles.getD number .closed ≠ .created
      rw [hphase]
      nofun
  answer := fun _ v hs hdry => Shared.answer hm hs hdry.source v
  init_dry := by
    intro context s streams hs hdry
    rwa [init_of_not_created m hdry.phase]
  generate_dry := fun _ hs hdry =>
    ⟨hdry.lt, hdry.phase, Shared.generate_used.keeps_dry hm hs hdry.source⟩
  close_dry := by
    intro s _ hdry
    refine ⟨by simpa [machine] using hdry.lt, ?_, hdry.source⟩
    show (s.handles.setIfInBounds number .closed).getD number .closed ≠ .created
    simp [Array.getD_eq_getD_getElem?, hdry.lt]
  meanwhile_dry := by
    rintro s s' hs hdry (_ | ⟨other, hother, c, streams⟩ | ⟨source', h⟩)
    · exact hdry.clone
    · exact hdry.call hm hother c streams hs
    · exact ⟨hdry.lt, hdry.phase, hm.meanwhile_dry _ _ hs hdry.source h⟩

end SharedHandles

end

/-! ## Records -/

namespace Fields

/-- Fields whose generators settle, with what happens to any of them meanwhile.  They
have run out together when one of them has. -/
inductive Settle : {τ : Type} → Fields τ → (meanwhile : τ → τ → Prop) → (inv dry : τ → Prop) → Prop
  | nil : Settle .nil Machine.Alone (fun _ => True) (fun _ => False)
  | cons {σ τ : Type} {m : Machine σ Value} {rest : Fields τ} {meanwhile : σ → σ → Prop}
    {meanwhile' : τ → τ → Prop} {inv dry : σ → Prop} {inv' dry' : τ → Prop} (name : String) :
    m.Settles meanwhile inv dry → Settle rest meanwhile' inv' dry' →
    Settle (.cons name m rest)
      (fun s t => meanwhile s.1 t.1 ∧ t.2 = s.2 ∨ t.1 = s.1 ∧ meanwhile' s.2 t.2)
      (fun s => inv s.1 ∧ inv' s.2) (fun s => dry s.1 ∨ dry' s.2)

variable {τ : Type} {fields : Fields τ} {meanwhile : τ → τ → Prop} {inv dry : τ → Prop}

theorem Settle.init_inv (hf : fields.Settle meanwhile inv dry) (context : Context) {s : τ}
    (streams : Streams) (hs : inv s) : inv (fields.init context s streams).2.1 := by
  induction hf generalizing streams with
  | nil => trivial
  | cons name hm _ ih =>
    obtain ⟨s, states⟩ := s
    have hfirst := hm.init context s streams hs.1
    simp only [Fields.init]
    rcases hinit : Machine.init _ context s streams with ⟨fault | _, s', streams'⟩
    all_goals rw [hinit] at hfirst
    · exact ⟨hfirst, hs.2⟩
    · exact ⟨hfirst, ih streams' hs.2⟩

theorem Settle.reset_inv (hf : fields.Settle meanwhile inv dry) {s : τ} (streams : Streams)
    (hs : inv s) : inv (fields.reset s streams).2.1 := by
  induction hf generalizing streams with
  | nil => trivial
  | cons name hm _ ih =>
    obtain ⟨s, states⟩ := s
    have hfirst := hm.reset s streams hs.1
    simp only [Fields.reset]
    rcases hreset : Machine.reset _ s streams with ⟨fault | _, s', streams'⟩
    all_goals rw [hreset] at hfirst
    · exact ⟨hfirst, hs.2⟩
    · exact ⟨hfirst, ih streams' hs.2⟩

theorem Settle.generate_inv (hf : fields.Settle meanwhile inv dry) {s : τ} (hs : inv s) :
    inv (fields.generate s).2 := by
  induction hf with
  | nil => trivial
  | cons name hm _ ih =>
    obtain ⟨s, states⟩ := s
    have hfirst := hm.generate s hs.1
    have hrest := ih hs.2
    simp only [Fields.generate]
    rcases hgenerate : Machine.generate _ s with ⟨fault | _ | v, s'⟩
    all_goals rw [hgenerate] at hfirst
    · exact ⟨hfirst, hs.2⟩
    · exact ⟨hfirst, hs.2⟩
    · rcases hentries : Fields.generate _ states with ⟨fault | _ | entries, states'⟩
      all_goals
        rw [hentries] at hrest
        exact ⟨hfirst, hrest⟩

theorem Settle.close_inv (hf : fields.Settle meanwhile inv dry) {s : τ} (hs : inv s) :
    inv (fields.close s) := by
  induction hf with
  | nil => trivial
  | cons name hm _ ih => exact ⟨hm.close _ hs.1, ih hs.2⟩

theorem Settle.meanwhile_inv (hf : fields.Settle meanwhile inv dry) {s s' : τ} (hs : inv s)
    (h : meanwhile s s') : inv s' := by
  induction hf with
  | nil => exact h.elim
  | cons name hm _ ih =>
    obtain ⟨s, states⟩ := s
    obtain ⟨s', states'⟩ := s'
    rcases h with ⟨h, rfl⟩ | ⟨rfl, h⟩
    · exact ⟨hm.meanwhile_inv _ _ hs.1 h, hs.2⟩
    · exact ⟨hs.1, ih hs.2 h⟩

/-- There is no record only if a field has run out. -/
theorem Settle.ends (hf : fields.Settle meanwhile inv dry) {s : τ} (hs : inv s)
    (h : (fields.generate s).1 = .ok none) : dry (fields.generate s).2 := by
  induction hf with
  | nil => cases h
  | cons name hm _ ih =>
    obtain ⟨s, states⟩ := s
    have hfirst := hm.ends s hs.1
    have hrest := ih hs.2
    simp only [Fields.generate] at h ⊢
    rcases hgenerate : Machine.generate _ s with ⟨fault | _ | v, s'⟩
    all_goals simp only [hgenerate] at h hfirst ⊢
    · cases h
    · exact Or.inl (hfirst trivial)
    · rcases hentries : Fields.generate _ states with ⟨fault | _ | entries, states'⟩
      all_goals simp only [hentries] at h hrest ⊢
      · cases h
      · exact Or.inr (hrest trivial)
      · cases h

/-- A field that has run out holds up the whole record, whatever the fields before it
answer. -/
theorem Settle.stays (hf : fields.Settle meanwhile inv dry) {s : τ} (hs : inv s) (hdry : dry s) :
    (∀ entries, (fields.generate s).1 ≠ .ok (some entries)) ∧ dry (fields.generate s).2 := by
  induction hf with
  | nil => exact hdry.elim
  | cons name hm _ ih =>
    obtain ⟨s, states⟩ := s
    have hanswer := fun v => hm.answer s v hs.1
    have hfirst := hm.generate_dry s hs.1
    have hrest := ih hs.2
    simp only [Fields.generate]
    rcases hgenerate : Machine.generate _ s with ⟨fault | _ | v, s'⟩
    all_goals simp only [hgenerate] at hanswer hfirst ⊢
    · exact ⟨nofun, hdry.imp_left hfirst⟩
    · exact ⟨nofun, hdry.imp_left hfirst⟩
    · have hdry' := hdry.resolve_left fun h => hanswer v h rfl
      obtain ⟨hnone, hleft⟩ := hrest hdry'
      rcases hentries : Fields.generate _ states with ⟨fault | _ | entries, states'⟩
      all_goals rw [hentries] at hnone hleft
      · exact ⟨nofun, Or.inr hleft⟩
      · exact ⟨nofun, Or.inr hleft⟩
      · exact absurd rfl (hnone entries)

theorem Settle.close_dry (hf : fields.Settle meanwhile inv dry) {s : τ} (hs : inv s)
    (hdry : dry s) : dry (fields.close s) := by
  induction hf with
  | nil => exact hdry.elim
  | cons name hm _ ih => exact hdry.imp (hm.close_dry _ hs.1) (ih hs.2)

theorem Settle.meanwhile_dry (hf : fields.Settle meanwhile inv dry) {s s' : τ} (hs : inv s)
    (hdry : dry s) (h : meanwhile s s') : dry s' := by
  induction hf with
  | nil => exact h.elim
  | cons name hm _ ih =>
    obtain ⟨s, states⟩ := s
    obtain ⟨s', states'⟩ := s'
    rcases h with ⟨h, rfl⟩ | ⟨rfl, h⟩
    · exact hdry.imp_left fun hfirst => hm.meanwhile_dry _ _ hs.1 hfirst h
    · exact hdry.imp_right fun hrest => ih hs.2 hrest h

end Fields

namespace Record

variable {τ : Type} {fields : Fields τ} {meanwhile : τ → τ → Prop} {inv dry : τ → Prop}

/-- Something happens to the fields of a record. -/
def Meanwhile (meanwhile : τ → τ → Prop) (r r' : Record τ) : Prop :=
  meanwhile r.states r'.states ∧ r' = { r with states := r'.states }

theorem init_states_inv (hf : fields.Settle meanwhile inv dry) (context : Context) {r : Record τ}
    (streams : Streams) (hr : inv r.states) : inv (init fields context r streams).2.1.states := by
  have hleft := hf.init_inv context streams hr
  unfold init
  split
  · exact hr
  · split <;> simp_all

/-- The answer of a running record is made of those of its fields. -/
theorem generate_running (fields : Fields τ) (states : τ) :
    (machine fields).generate ⟨states, .running⟩ =
      ((fields.generate states).1.map (Option.map Value.ofEntries),
        ⟨(fields.generate states).2, .running⟩) := by
  rcases hgenerate : fields.generate states with ⟨fault | entries, states'⟩
  · simp [machine, Phase.requireRunning, hgenerate, Except.map]
  · simp [machine, Phase.requireRunning, hgenerate, Except.map]

theorem settles (hf : fields.Settle meanwhile inv dry) :
    (machine fields).Settles (Meanwhile meanwhile) (fun r => inv r.states)
      (fun r => r.phase ≠ .created ∧ dry r.states) where
  init := fun context _ streams hr => init_states_inv hf context streams hr
  generate := by
    rintro ⟨states, phase⟩ hr
    cases phase with
    | created | closed => exact hr
    | running =>
      rw [generate_running]
      exact hf.generate_inv hr
  reset := by
    rintro ⟨states, phase⟩ streams hr
    cases phase with
    | created => exact init_states_inv hf _ _ hr
    | closed => exact hr
    | running => exact hf.reset_inv streams hr
  close := fun _ hr => hf.close_inv hr
  meanwhile_inv := fun _ _ hr h => hf.meanwhile_inv hr h.1
  ends := by
    rintro ⟨states, phase⟩ hr h
    cases phase with
    | created | closed => cases h
    | running =>
      rw [generate_running] at h ⊢
      exact ⟨nofun, hf.ends hr (Machine.map_eq_none h)⟩
  answer := by
    rintro ⟨states, phase⟩ v hr hdry h
    cases phase with
    | created | closed => cases h
    | running =>
      rw [generate_running] at h
      obtain ⟨entries, hentries⟩ := Machine.map_eq_some h
      exact (hf.stays hr hdry.2).1 entries hentries
  init_dry := by
    rintro context r streams - hdry
    obtain ⟨fault, hfault, -⟩ := r.phase.requireCreated_error owner hdry.1
    simpa [machine, init, hfault] using hdry
  generate_dry := by
    rintro ⟨states, phase⟩ hr hdry
    cases phase with
    | created | closed => exact hdry
    | running =>
      rw [generate_running]
      exact ⟨nofun, (hf.stays hr hdry.2).2⟩
  close_dry := fun _ hr hdry => ⟨nofun, hf.close_dry hr hdry.2⟩
  meanwhile_dry := fun _ _ hr hdry h =>
    ⟨by rw [h.2]; exact hdry.1, hf.meanwhile_dry hr hdry.2 h.1⟩

end Record
end SynthData
