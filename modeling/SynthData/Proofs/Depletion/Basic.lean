import SynthData.Proofs.Generator.Run

/-!
# Running out for good

A generator that has run out hands out nothing more before it is reset.
`Machine.Leads` says how a state can come about from another one: by calls, by
the random streams that happen to be there at each of them, and by what the users
of other handles do to a shared source in between.  `Machine.Settled` is the
property in question, of a state and of all states that it leads to.

To show it, one says which states have run out (`Machine.Settles`): a call that
finds nothing leads to such a state, and no call but `reset` leads out of them.
`Machine.settles` is the converse: what is settled has such states.
-/
namespace SynthData

namespace Machine

variable {σ α : Type} (m : Machine σ α) (meanwhile : σ → σ → Prop)

/-- The state that a call leaves. -/
def stateAfter (c : Call) (s : σ) (streams : Streams) : σ :=
  (m.call (.start s streams) c).state

/-- How a state comes about from the state `s`: by calls of the allowed sorts, and by
what others do to the state. -/
inductive Leads (allowed : Call → Prop) (s : σ) : σ → Prop where
  | start : Leads allowed s s
  | call {t : σ} (c : Call) (streams : Streams) :
    Leads allowed s t → allowed c → Leads allowed s (m.stateAfter c t streams)
  | other {t t' : σ} : Leads allowed s t → meanwhile t t' → Leads allowed s t'

/-- Nothing is handed out before the next reset. -/
def Dry (s : σ) : Prop :=
  ∀ t, m.Leads meanwhile (· ≠ .reset) s t → ∀ v, (m.generate t).1 ≠ .ok (some v)

/-- Whenever there is no value, there is none before the next reset. -/
def Settled (s : σ) : Prop :=
  ∀ t, m.Leads meanwhile (fun _ => True) s t → (m.generate t).1 = .ok none →
    m.Dry meanwhile (m.generate t).2

/-- Under an invariant, `dry` holds of a state once there is no value, and from then
on until the next reset. -/
structure Settles (inv dry : σ → Prop) : Prop extends m.Keeps inv where
  meanwhile_inv : ∀ s s', inv s → meanwhile s s' → inv s'
  ends : ∀ s, inv s → (m.generate s).1 = .ok none → dry (m.generate s).2
  answer : ∀ s v, inv s → dry s → (m.generate s).1 ≠ .ok (some v)
  init_dry : ∀ context s streams, inv s → dry s → dry (m.init context s streams).2.1
  generate_dry : ∀ s, inv s → dry s → dry (m.generate s).2
  close_dry : ∀ s, inv s → dry s → dry (m.close s)
  meanwhile_dry : ∀ s s', inv s → dry s → meanwhile s s' → dry s'

variable {m meanwhile} {inv dry : σ → Prop} {s t u : σ}

theorem Leads.trans {allowed : Call → Prop} (hst : m.Leads meanwhile allowed s t)
    (htu : m.Leads meanwhile allowed t u) : m.Leads meanwhile allowed s u := by
  induction htu with
  | start => exact hst
  | call c streams _ hc ih => exact .call c streams ih hc
  | other _ hother ih => exact .other ih hother

theorem Leads.generate {allowed : Call → Prop} (hallowed : allowed .generate) (s : σ) :
    m.Leads meanwhile allowed s (m.generate s).2 := by
  have h : m.Leads meanwhile allowed s (m.stateAfter .generate s (.start fun _ => .ofSeed 0)) :=
    .call .generate _ .start hallowed
  rwa [stateAfter, (call_generate _).1] at h

theorem Leads.init {allowed : Call → Prop} {context : Context} (hallowed : allowed (.init context))
    (s : σ) (streams : Streams) : m.Leads meanwhile allowed s (m.init context s streams).2.1 :=
  .call (.init context) streams .start hallowed

theorem Leads.close {allowed : Call → Prop} (hallowed : allowed .close) (s : σ) :
    m.Leads meanwhile allowed s (m.close s) :=
  .call .close (.start fun _ => .ofSeed 0) .start hallowed

theorem Settles.leads_inv (hm : m.Settles meanwhile inv dry) {allowed : Call → Prop}
    (h : m.Leads meanwhile allowed s t) (hs : inv s) : inv t := by
  induction h with
  | start => exact hs
  | call c streams _ _ ih => exact hm.toKeeps.call ih c
  | other _ hother ih => exact hm.meanwhile_inv _ _ ih hother

/-- No way leads out of the dry states but a reset. -/
theorem Settles.leads_dry (hm : m.Settles meanwhile inv dry)
    (h : m.Leads meanwhile (· ≠ .reset) s t) (hs : inv s) (hdry : dry s) : inv t ∧ dry t := by
  refine ⟨hm.leads_inv h hs, ?_⟩
  induction h with
  | start => exact hdry
  | @call t c streams hst hc ih =>
    have ht := hm.leads_inv hst hs
    cases c with
    | init context => exact hm.init_dry context t streams ht ih
    | generate =>
      rw [stateAfter, (call_generate _).1]
      exact hm.generate_dry t ht ih
    | reset => exact absurd rfl hc
    | close => exact hm.close_dry t ht ih
  | other hst hother ih => exact hm.meanwhile_dry _ _ (hm.leads_inv hst hs) ih hother

theorem Settles.settled (hm : m.Settles meanwhile inv dry) (hs : inv s) :
    m.Settled meanwhile s := by
  intro t hst hnone u htu v
  have ht := hm.leads_inv hst hs
  obtain ⟨hu, hdry⟩ := hm.leads_dry htu (hm.generate t ht) (hm.ends t ht hnone)
  exact hm.answer u v hu hdry

/-- The largest invariant under which a machine settles. -/
theorem settles (m : Machine σ α) (meanwhile : σ → σ → Prop) :
    m.Settles meanwhile (m.Settled meanwhile) (m.Dry meanwhile) where
  init := fun _ s streams hs t ht => hs t ((Leads.init trivial s streams).trans ht)
  generate := fun s hs t ht => hs t ((Leads.generate trivial s).trans ht)
  reset := fun _ streams hs t ht => hs t ((Leads.call .reset streams .start trivial).trans ht)
  close := fun s hs t ht => hs t ((Leads.close trivial s).trans ht)
  meanwhile_inv := fun _ _ hs hother t ht => hs t ((Leads.other .start hother).trans ht)
  ends := fun s hs hnone => hs s .start hnone
  answer := fun s v _ hdry => hdry s .start v
  init_dry := fun _ s streams _ hdry t ht => hdry t ((Leads.init nofun s streams).trans ht)
  generate_dry := fun s _ hdry t ht => hdry t ((Leads.generate nofun s).trans ht)
  close_dry := fun s _ hdry t ht => hdry t ((Leads.close nofun s).trans ht)
  meanwhile_dry := fun _ _ _ hdry hother t ht => hdry t ((Leads.other .start hother).trans ht)

/-- Nobody else changes the state. -/
def Alone (_ _ : σ) : Prop := False

theorem Leads.of_alone {allowed : Call → Prop} (h : m.Leads Alone allowed s t) :
    m.Leads meanwhile allowed s t := by
  induction h with
  | start => exact .start
  | call c streams _ hc ih => exact .call c streams ih hc
  | other _ hother _ => exact hother.elim

theorem Settled.alone (h : m.Settled meanwhile s) : m.Settled Alone s :=
  fun t hst hnone u htu => h t hst.of_alone hnone u htu.of_alone

/-- A generator that is nobody else's settles if a part of its state is spent once there is no
value, and stays so. -/
theorem Settles.of_spent {spent : σ → Prop}
    (hinit : ∀ context s streams, m.phase s ≠ .created → (m.init context s streams).2.1 = s)
    (hends : ∀ s, (m.generate s).1 = .ok none →
      m.phase (m.generate s).2 ≠ .created ∧ spent (m.generate s).2)
    (hstays : ∀ s, m.phase s ≠ .created → spent s → (∀ v, (m.generate s).1 ≠ .ok (some v)) ∧
      m.phase (m.generate s).2 ≠ .created ∧ spent (m.generate s).2)
    (hclose : ∀ s, spent s → m.phase (m.close s) ≠ .created ∧ spent (m.close s)) :
    m.Settles Alone (fun _ => True) fun s => m.phase s ≠ .created ∧ spent s where
  init := fun _ _ _ _ => trivial
  generate := fun _ _ => trivial
  reset := fun _ _ _ => trivial
  close := fun _ _ => trivial
  meanwhile_inv := fun _ _ _ h => h.elim
  ends := fun s _ h => hends s h
  answer := fun s v _ hdry => (hstays s hdry.1 hdry.2).1 v
  init_dry := by
    intro context s streams _ hdry
    rw [hinit context s streams hdry.1]
    exact hdry
  generate_dry := fun s _ hdry => (hstays s hdry.1 hdry.2).2
  close_dry := fun s _ hdry => hclose s hdry.2
  meanwhile_dry := fun _ _ _ _ h => h.elim

/-! ## Changed answers -/

theorem map_eq_none {β : Type} {f : α → β} {answer : Except Fault (Option α)}
    (h : answer.map (Option.map f) = .ok none) : answer = .ok none := by
  rcases answer with fault | _ | a
  · cases h
  · rfl
  · cases h

theorem map_eq_some {β : Type} {f : α → β} {b : β} {answer : Except Fault (Option α)}
    (h : answer.map (Option.map f) = .ok (some b)) : ∃ a, answer = .ok (some a) := by
  rcases answer with fault | _ | a
  · cases h
  · cases h
  · exact ⟨a, rfl⟩

/-! ## Machines put together -/

variable {τ : Type} {M : Machine τ α} {wrap : σ → τ}

/-- A machine that others treat as their own leads to states of its own only. -/
theorem Embeds.leads (h : m.Embeds M wrap) {allowed : Call → Prop} {s : σ} {t : τ}
    (ht : M.Leads Alone allowed (wrap s) t) :
    ∃ t', t = wrap t' ∧ m.Leads Alone allowed s t' := by
  induction ht with
  | start => exact ⟨s, rfl, .start⟩
  | call c streams _ hc ih =>
    obtain ⟨t', rfl, ht'⟩ := ih
    refine ⟨_, ?_, .call c streams ht' hc⟩
    cases c with
    | init context => exact congrArg (·.2.1) (h.init context t' streams)
    | generate =>
      rw [stateAfter, stateAfter, (call_generate _).1, (call_generate _).1]
      exact congrArg Prod.snd (h.generate t')
    | reset => exact congrArg (·.2.1) (h.reset t' streams)
    | close => exact h.close t'
  | other _ hother _ => exact hother.elim

theorem Embeds.settled (h : m.Embeds M wrap) {s : σ} (hs : m.Settled Alone s) :
    M.Settled Alone (wrap s) := by
  intro _ hst hnone _ htu v
  obtain ⟨t, rfl, ht⟩ := h.leads hst
  rw [h.generate] at hnone htu
  obtain ⟨u, rfl, hu⟩ := h.leads htu
  rw [h.generate]
  exact hs t ht hnone u hu v

end Machine

end SynthData
