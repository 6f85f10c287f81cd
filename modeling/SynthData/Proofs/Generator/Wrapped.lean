import SynthData.Generator.Machine
import SynthData.Proofs.Generator.Run

/-!
# Generators over a source

`Wrapped.Opens` and `Wrapped.Restarts` list all that a call of `init` or `reset`
can do to a generator and its source, one constructor for each way.  What is
known of the source carries over to the generator by going through them.

A generator that changes values by a function has the properties of its source:
its values are images of good ones, and an injective function keeps values used
up (`Mapped.machine_spends`).
-/
namespace SynthData

theorem Phase.requireCreated_error (p : Phase) (owner : String) (h : p ≠ .created) :
    ∃ fault, p.requireCreated owner = .error fault ∧ fault.kind = .illegalState := by
  cases p with
  | created => exact absurd rfl h
  | running => exact ⟨_, rfl, rfl⟩
  | closed => exact ⟨_, rfl, rfl⟩

namespace Wrapped

variable {σ α : Type} {owner : String} {m : Machine σ α} {w : Wrapped σ}

/-- What initializing a generator over a source can come to: a refusal, a
failure of the source, or success. -/
inductive Opens (m : Machine σ α) (w : Wrapped σ) : Except Fault Unit → Wrapped σ → Prop where
  | refused (fault : Fault) (phase : w.phase ≠ .created) : Opens m w (.error fault) w
  | failed (context : Context) (streams : Streams) (fault : Fault) (phase : w.phase = .created) :
    (m.init context w.source streams).1 = .error fault →
      Opens m w (.error fault) ⟨(m.init context w.source streams).2.1, w.phase⟩
  | opened (context : Context) (streams : Streams) (phase : w.phase = .created) :
    (m.init context w.source streams).1 = .ok () →
      Opens m w (.ok ()) ⟨(m.init context w.source streams).2.1, .running⟩

/-- What resetting a generator over a source can come to.  A created one is
initialized, and a running one resets its source. -/
inductive Restarts (m : Machine σ α) (w : Wrapped σ) : Except Fault Bool → Wrapped σ → Prop where
  | refused (fault : Fault) (phase : w.phase = .closed) : Restarts m w (.error fault) w
  | unopened (fault : Fault) (w' : Wrapped σ) (phase : w.phase = .created) :
    Opens m w (.error fault) w' → Restarts m w (.error fault) w'
  | opened (w' : Wrapped σ) (phase : w.phase = .created) :
    Opens m w (.ok ()) w' → Restarts m w (.ok true) w'
  | failed (streams : Streams) (fault : Fault) (phase : w.phase = .running) :
    (m.reset w.source streams).1 = .error fault →
      Restarts m w (.error fault) ⟨(m.reset w.source streams).2.1, w.phase⟩
  | restarted (streams : Streams) (phase : w.phase = .running) :
    (m.reset w.source streams).1 = .ok () →
      Restarts m w (.ok false) ⟨(m.reset w.source streams).2.1, w.phase⟩

theorem init_opens (owner : String) (m : Machine σ α) (w : Wrapped σ) (context : Context)
    (streams : Streams) :
    w.Opens m (w.init owner m context streams).1 (w.init owner m context streams).2.1 := by
  obtain ⟨source, phase⟩ := w
  cases phase with
  | running => exact .refused _ (by simp)
  | closed => exact .refused _ (by simp)
  | created =>
    rcases h : m.init context source streams with ⟨fault | _, source', streams'⟩
    · have := Opens.failed (m := m) (w := ⟨source, .created⟩) context streams fault rfl (by rw [h])
      simpa [Wrapped.init, Phase.requireCreated, h] using this
    · have := Opens.opened (m := m) (w := ⟨source, .created⟩) context streams rfl (by rw [h])
      simpa [Wrapped.init, Phase.requireCreated, h] using this

theorem reset_restarts (owner : String) (m : Machine σ α) (w : Wrapped σ) (streams : Streams) :
    w.Restarts m (w.reset owner m streams).1 (w.reset owner m streams).2.1 := by
  obtain ⟨source, phase⟩ := w
  cases phase with
  | closed => exact .refused _ rfl
  | created =>
    have hopens := init_opens owner m ⟨source, .created⟩
      streams.defaultContext.1 streams.defaultContext.2
    rcases h : Wrapped.init owner m streams.defaultContext.1 ⟨source, .created⟩
      streams.defaultContext.2 with ⟨fault | _, w', streams'⟩
    · rw [h] at hopens
      simpa [Wrapped.reset, h] using Restarts.unopened fault w' rfl hopens
    · rw [h] at hopens
      simpa [Wrapped.reset, h] using Restarts.opened w' rfl hopens
  | running =>
    rcases h : m.reset source streams with ⟨fault | _, source', streams'⟩
    · have := Restarts.failed (m := m) (w := ⟨source, .running⟩) streams fault rfl (by rw [h])
      simpa [Wrapped.reset, h] using this
    · have := Restarts.restarted (m := m) (w := ⟨source, .running⟩) streams rfl (by rw [h])
      simpa [Wrapped.reset, h] using this

/-! ## What the source decides -/

theorem init_refused (owner : String) (m : Machine σ α) (h : w.phase ≠ .created)
    (context : Context) (streams : Streams) :
    ∃ fault, w.init owner m context streams = (.error fault, w, streams) ∧
      fault.kind = .illegalState := by
  obtain ⟨fault, hfault, hkind⟩ := w.phase.requireCreated_error owner h
  exact ⟨fault, by simp [Wrapped.init, hfault], hkind⟩

/-- A new owner runs as soon as its source has been initialized. -/
theorem init_of_source_ok (owner : String) {context : Context} {streams : Streams}
    (hw : w.phase = .created) (h : (m.init context w.source streams).1 = .ok ()) :
    w.init owner m context streams = (.ok (), ⟨(m.init context w.source streams).2.1, .running⟩,
      (m.init context w.source streams).2.2) := by
  rcases hinit : m.init context w.source streams with ⟨fault | _, source, streams'⟩
  · rw [hinit] at h
    cases h
  · simp [Wrapped.init, Phase.requireCreated, hw, hinit]

theorem init_of_source_error (owner : String) {context : Context} {streams : Streams}
    {fault : Fault} (hw : w.phase = .created)
    (h : (m.init context w.source streams).1 = .error fault) :
    w.init owner m context streams = (.error fault,
      ⟨(m.init context w.source streams).2.1, .created⟩,
      (m.init context w.source streams).2.2) := by
  rcases hinit : m.init context w.source streams with ⟨fault' | _, source, streams'⟩
  · rw [hinit] at h
    obtain rfl := Except.error.inj h
    simp [Wrapped.init, Phase.requireCreated, hw, hinit]
  · rw [hinit] at h
    cases h

theorem reset_refused (owner : String) (m : Machine σ α) (h : w.phase = .closed)
    (streams : Streams) :
    w.reset owner m streams = (.error (.alreadyClosed owner), w, streams) := by
  simp [Wrapped.reset, h]

theorem reset_of_source_ok (owner : String) {streams : Streams} (hw : w.phase = .running)
    (h : (m.reset w.source streams).1 = .ok ()) :
    w.reset owner m streams = (.ok false, ⟨(m.reset w.source streams).2.1, .running⟩,
      (m.reset w.source streams).2.2) := by
  rcases hreset : m.reset w.source streams with ⟨fault | _, source, streams'⟩
  · rw [hreset] at h
    cases h
  · simp [Wrapped.reset, hw, hreset]

theorem reset_of_source_error (owner : String) {streams : Streams} {fault : Fault}
    (hw : w.phase = .running) (h : (m.reset w.source streams).1 = .error fault) :
    w.reset owner m streams = (.error fault, ⟨(m.reset w.source streams).2.1, .running⟩,
      (m.reset w.source streams).2.2) := by
  rcases hreset : m.reset w.source streams with ⟨fault' | _, source, streams'⟩
  · rw [hreset] at h
    obtain rfl := Except.error.inj h
    simp [Wrapped.reset, hw, hreset]
  · rw [hreset] at h
    cases h

/-- A generator over a source goes on running when its source is reset, whether that
succeeds or not. -/
theorem phase_reset (owner : String) (m : Machine σ α) (h : w.phase = .running)
    (streams : Streams) : (w.reset owner m streams).2.1.phase = .running := by
  rcases hreset : (m.reset w.source streams).1 with fault | _
  · rw [reset_of_source_error owner h hreset]
  · rw [reset_of_source_ok owner h hreset]

/-- A new owner answers what its source answers. -/
theorem init_new (owner : String) (m : Machine σ α) (source : σ) (context : Context)
    (streams : Streams) :
    ((Wrapped.new source).init owner m context streams).1 = (m.init context source streams).1 := by
  rcases hinit : m.init context source streams with ⟨fault | _, source', streams'⟩
  · simp [Wrapped.init, Wrapped.new, Phase.requireCreated, hinit]
  · simp [Wrapped.init, Wrapped.new, Phase.requireCreated, hinit]

/-- A failure leaves the owner where it was. -/
theorem phase_of_init_error {context : Context} {streams : Streams} {fault : Fault}
    (h : (w.init owner m context streams).1 = .error fault) :
    (w.init owner m context streams).2.1.phase = w.phase := by
  have hopens := init_opens owner m w context streams
  rw [h] at hopens
  generalize (w.init owner m context streams).2.1 = w' at hopens
  cases hopens with
  | refused _ _ => rfl
  | failed _ _ _ _ _ => rfl

/-! ## What is known of the source -/

variable {inv : σ → Prop}

theorem Opens.keeps (hm : m.Keeps inv) {w' : Wrapped σ} {answer : Except Fault Unit}
    (h : w.Opens m answer w') (hw : inv w.source) : inv w'.source := by
  cases h with
  | refused _ _ => exact hw
  | failed context streams _ _ _ => exact hm.init context w.source streams hw
  | opened context streams _ _ => exact hm.init context w.source streams hw

theorem Restarts.keeps (hm : m.Keeps inv) {w' : Wrapped σ} {answer : Except Fault Bool}
    (h : w.Restarts m answer w') (hw : inv w.source) : inv w'.source := by
  cases h with
  | refused _ _ => exact hw
  | unopened _ _ _ hopens => exact hopens.keeps hm hw
  | opened _ _ hopens => exact hopens.keeps hm hw
  | failed streams _ _ _ => exact hm.reset w.source streams hw
  | restarted streams _ _ => exact hm.reset w.source streams hw

/-- The next value is that of the source, if there is one. -/
theorem generate_cases (owner : String) (m : Machine σ α) (w : Wrapped σ) :
    ((∃ fault, (w.generate owner m).1 = .error fault) ∧ (w.generate owner m).2 = w) ∨
      (w.phase = .running ∧ (w.generate owner m).1 = (m.generate w.source).1 ∧
        (w.generate owner m).2 = ⟨(m.generate w.source).2, w.phase⟩) := by
  obtain ⟨source, phase⟩ := w
  cases phase with
  | created => exact Or.inl ⟨⟨_, rfl⟩, rfl⟩
  | closed => exact Or.inl ⟨⟨_, rfl⟩, rfl⟩
  | running => exact Or.inr ⟨rfl, rfl, rfl⟩

theorem generate_phase (owner : String) (m : Machine σ α) (w : Wrapped σ) :
    (w.generate owner m).2.phase = w.phase := by
  rcases generate_cases owner m w with ⟨-, hstate⟩ | ⟨-, -, hstate⟩
  · rw [hstate]
  · rw [hstate]

theorem running_of_generate {v : α} (h : (w.generate owner m).1 = .ok (some v)) :
    w.phase = .running := by
  rcases generate_cases owner m w with ⟨⟨fault, hfault⟩, -⟩ | ⟨running, -, -⟩
  · rw [hfault] at h
    cases h
  · exact running

end Wrapped

/-! ## Changed values -/

namespace Mapped

variable {σ α β : Type} {owner : String} {m : Machine σ α} {f : α → β} {inv : σ → Prop}

theorem generate_snd (w : Wrapped σ) :
    ((machine owner m f).generate w).2 = (w.generate owner m).2 := by
  simp only [machine]
  split <;> simp_all

theorem generate_some {w : Wrapped σ} {b : β}
    (h : ((machine owner m f).generate w).1 = .ok (some b)) :
    ∃ a, (m.generate w.source).1 = .ok (some a) ∧ f a = b ∧
      ((machine owner m f).generate w).2 = ⟨(m.generate w.source).2, w.phase⟩ := by
  rw [generate_snd]
  rcases Wrapped.generate_cases owner m w with ⟨⟨fault, hfault⟩, -⟩ | ⟨-, hanswer, hstate⟩
  · simp only [machine] at h
    split at h
    · cases h
    · simp_all
  · simp only [machine] at h
    split at h
    · cases h
    · rename_i value w' hgenerate
      obtain ⟨a, hvalue, ha⟩ := Option.map_eq_some_iff.mp (Except.ok.inj h)
      rw [hgenerate] at hanswer
      exact ⟨a, by rw [← hanswer, hvalue], ha, hstate⟩

theorem machine_keeps (hm : m.Keeps inv) :
    (machine owner m f).Keeps (fun w => inv w.source) where
  init := fun context _ streams hw => (Wrapped.init_opens owner m _ context streams).keeps hm hw
  generate := by
    intro w hw
    rw [generate_snd]
    rcases Wrapped.generate_cases owner m w with ⟨-, hstate⟩ | ⟨-, -, hstate⟩
    · rw [hstate]; exact hw
    · rw [hstate]; exact hm.generate w.source hw
  reset := by
    intro w streams hw
    have h := (Wrapped.reset_restarts owner m w streams).keeps hm hw
    simp only [machine]
    split <;> simp_all
  close := fun w hw => hm.close w.source hw

theorem machine_yields {good : α → Prop} (hm : m.Yields inv good) :
    (machine owner m f).Yields (fun w => inv w.source) (fun b => ∃ a, good a ∧ f a = b) where
  toKeeps := machine_keeps hm.toKeeps
  good := by
    intro w b hw h
    obtain ⟨a, ha, hab, -⟩ := generate_some h
    exact ⟨a, hm.good w.source a hw ha, hab⟩

/-- An injective function keeps values used up. -/
theorem machine_spends {pending : σ → α → Prop} (hm : m.Spends inv pending)
    (hf : Function.Injective f) :
    (machine owner m f).Spends (fun w => inv w.source)
      (fun w b => ∃ a, f a = b ∧ pending w.source a) where
  toKeeps := machine_keeps hm.toKeeps
  spent := by
    intro w b hw h
    obtain ⟨a, ha, rfl, hstate⟩ := generate_some h
    have hspent := hm.spent w.source a hw ha
    refine ⟨⟨a, rfl, hspent.1⟩, ?_⟩
    rw [hstate]
    rintro ⟨a', heq, hpending⟩
    exact hspent.2 (hf heq ▸ hpending)
  generate_pending := by
    intro w b hw
    rintro ⟨a, rfl, hpending⟩
    rw [generate_snd] at hpending
    rcases Wrapped.generate_cases owner m w with ⟨-, hstate⟩ | ⟨-, -, hstate⟩
    · exact ⟨a, rfl, hstate ▸ hpending⟩
    · rw [hstate] at hpending
      exact ⟨a, rfl, hm.generate_pending w.source a hw hpending⟩
  close_pending := by
    intro w b hw
    rintro ⟨a, rfl, hpending⟩
    exact ⟨a, rfl, hm.close_pending w.source a hw hpending⟩

end Mapped
end SynthData
