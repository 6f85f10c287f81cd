import SynthData.Generator.Sample
import SynthData.Proofs.Generator.Pass

/-!
# States that cannot be told apart

Two states of a generator are alike if they give the same answers for ever.  To show it, one
gives a relation that the answers respect and that a call of `generate` keeps
(`Machine.Equates`).

What a sampler hands out depends on its list and on its choice among it only; neither its source
nor the context of its initialization is looked at (`Sample.equates`).
-/
namespace SynthData

namespace Machine

variable {σ α : Type}

/-- **States that are alike** give the same answer, and a call of `generate` leaves them alike. -/
structure Equates (m : Machine σ α) (alike : σ → σ → Prop) : Prop where
  answer : ∀ s t, alike s t → (m.generate s).1 = (m.generate t).1
  generate : ∀ s t, alike s t → alike (m.generate s).2 (m.generate t).2

variable {m : Machine σ α} {alike : σ → σ → Prop} {s t : σ}

theorem Equates.of_step (h : ∀ s t, alike s t →
    (m.generate s).1 = (m.generate t).1 ∧ alike (m.generate s).2 (m.generate t).2) :
    m.Equates alike where
  answer := fun s t hst => (h s t hst).1
  generate := fun s t hst => (h s t hst).2

/-- A state is like itself. -/
theorem equates_eq (m : Machine σ α) : m.Equates Eq where
  answer := fun _ _ h => h ▸ rfl
  generate := fun _ _ h => h ▸ rfl

theorem Equates.after (hm : m.Equates alike) (h : alike s t) (n : Nat) :
    alike (m.after n s) (m.after n t) := by
  induction n with
  | zero => exact h
  | succ n ih => exact hm.generate _ _ ih

/-- **States that are alike give the same answers for ever.** -/
theorem Equates.answers (hm : m.Equates alike) (h : alike s t) (n : Nat) :
    m.answer n s = m.answer n t :=
  hm.answer _ _ (hm.after h n)

/-- They cannot be told apart by initializing them either, if that leaves them alike. -/
theorem Equates.run (hm : m.Equates alike)
    (hinit : ∀ context s t streams streams', alike s t →
      alike (m.init context s streams).2.1 (m.init context t streams').2.1)
    (h : alike s t) {calls : List Call} (hcalls : ∀ c ∈ calls, c ≠ .reset ∧ c ≠ .close)
    (streams streams' : Streams) :
    alike (m.run calls (.start s streams)).state (m.run calls (.start t streams')).state := by
  suffices hrun : ∀ r r' : Run σ α, alike r.state r'.state →
      alike (m.run calls r).state (m.run calls r').state from hrun _ _ h
  induction calls with
  | nil => exact fun _ _ hr => hr
  | cons c calls ih =>
    intro r r' hr
    refine ih (fun c hc => hcalls c (List.mem_cons_of_mem _ hc)) (m.call r c) (m.call r' c) ?_
    cases c with
    | init context => exact hinit context _ _ _ _ hr
    | generate =>
      rw [(call_generate r).1, (call_generate r').1]
      exact hm.generate _ _ hr
    | reset => exact absurd rfl (hcalls .reset List.mem_cons_self).1
    | close => exact absurd rfl (hcalls .close List.mem_cons_self).2

theorem Equates.drainInto (hm : m.Equates alike) (h : alike s t) (read : Array α) (limit : Nat) :
    (m.drainInto read limit s).1 = (m.drainInto read limit t).1 ∧
      alike (m.drainInto read limit s).2 (m.drainInto read limit t).2 := by
  -- the induction is on the number of values that may still be read
  induction limit generalizing s t read with
  | zero => exact ⟨rfl, h⟩
  | succ limit ih =>
    have hanswer := hm.answer s t h
    have hnext := hm.generate s t h
    rcases hs : m.generate s with ⟨answer, s'⟩
    rcases ht : m.generate t with ⟨answer', t'⟩
    rw [hs, ht] at hanswer hnext
    obtain rfl : answer = answer' := hanswer
    simp only [Machine.drainInto, hs, ht]
    rcases answer with fault | _ | v
    · exact ⟨rfl, hnext⟩
    · exact ⟨rfl, hnext⟩
    · exact ih hnext (read.push v)

/-- **What is read in advance from states that are alike is the same.** -/
theorem Equates.readAhead (hm : m.Equates alike) (h : alike s t) (limit : Nat) :
    (m.readAhead limit s).1 = (m.readAhead limit t).1 := by
  obtain ⟨hanswer, hnext⟩ := hm.drainInto h #[] limit
  rcases hs : m.drainInto #[] limit s with ⟨answer, s'⟩
  rcases ht : m.drainInto #[] limit t with ⟨answer', t'⟩
  rw [hs, ht] at hanswer hnext
  obtain rfl : answer = answer' := hanswer
  have hlast := hm.answer s' t' hnext
  simp only [Machine.readAhead, hs, ht]
  rcases answer with fault | read
  · rfl
  · by_cases hsize : read.size = limit
    · rcases hs' : m.generate s' with ⟨answer, s''⟩
      rcases ht' : m.generate t' with ⟨answer', t''⟩
      rw [hs', ht'] at hlast
      obtain rfl : answer = answer' := hlast
      rcases answer with fault | next
      · simp only [if_pos hsize, hs', ht']
      · simp only [if_pos hsize, hs', ht']
    · simp only [if_neg hsize]

/-- A machine that treats states in the same way respects what is alike among them. -/
theorem Equates.embed {τ : Type} {M : Machine τ α} {wrap : σ → τ} (hm : m.Equates alike)
    (h : m.Embeds M wrap) :
    M.Equates fun t t' => ∃ s s', alike s s' ∧ t = wrap s ∧ t' = wrap s' where
  answer := by
    rintro _ _ ⟨s, s', hs, rfl, rfl⟩
    rw [h.generate, h.generate]
    exact hm.answer s s' hs
  generate := by
    rintro _ _ ⟨s, s', hs, rfl, rfl⟩
    rw [h.generate, h.generate]
    exact ⟨_, _, hm.generate s s' hs, rfl, rfl⟩

/-- States may be alike in one of several ways. -/
theorem Equates.exists {ι : Type} {alike : ι → σ → σ → Prop} (h : ∀ i, m.Equates (alike i)) :
    m.Equates fun s t => ∃ i, alike i s t where
  answer := by
    rintro s t ⟨i, hst⟩
    exact (h i).answer s t hst
  generate := by
    rintro s t ⟨i, hst⟩
    exact ⟨i, (h i).generate s t hst⟩

end Machine

/-! ## Samplers -/

/-- The same choice, with numbers that are alike. -/
inductive Chooser.Alike {ν α : Type} (alike : ν → ν → Prop) :
    Chooser ν α → Chooser ν α → Prop where
  | nothing : Alike alike .nothing .nothing
  | single (value : Leaf (Constant α)) : Alike alike (.single value) (.single value)
  | positions (numbers numbers' : ν) : alike numbers numbers' →
    Alike alike (.positions numbers) (.positions numbers')

theorem Chooser.Alike.refl {ν α : Type} : ∀ chooser : Chooser ν α, chooser.Alike Eq chooser
  | .nothing => .nothing
  | .single value => .single value
  | .positions numbers => .positions numbers numbers rfl

namespace Sample

variable {σ ν α : Type} {d : Distribution ν} {alike : ν → ν → Prop}

/-- Samplers that run with the same list and the same choice among it. -/
structure Alike (alike : ν → ν → Prop) (s t : Sample σ ν α) : Prop where
  running : s.wrapped.phase = .running
  running' : t.wrapped.phase = .running
  values : s.values = t.values
  chooser : Chooser.Alike alike s.chooser t.chooser

/-- **The list and the choice decide what a sampler hands out.** -/
theorem equates (hd : d.machine.Equates alike) (m : Machine σ α) (unique : Bool) :
    (machine m d unique).Equates (Alike alike) := by
  refine .of_step ?_
  rintro ⟨⟨source, _⟩, known, values, truncated, chooser⟩
    ⟨⟨source', _⟩, known', _, truncated', chooser'⟩ ⟨rfl, rfl, rfl, hchooser⟩
  cases hchooser with
  | nothing => exact ⟨rfl, rfl, rfl, rfl, .nothing⟩
  | single value => exact ⟨rfl, rfl, rfl, rfl, .single _⟩
  | positions numbers numbers' h =>
    have hanswer := hd.answer _ _ h
    have hnext := hd.generate _ _ h
    rcases hs : d.machine.generate numbers with ⟨answer, numbers₁⟩
    rcases ht : d.machine.generate numbers' with ⟨answer', numbers₂⟩
    rw [hs, ht] at hanswer hnext
    obtain rfl : answer = answer' := hanswer
    simp only [machine, emit, Phase.requireRunning, hs, ht]
    rcases answer with fault | _ | n
    · exact ⟨rfl, rfl, rfl, rfl, .positions _ _ hnext⟩
    · exact ⟨rfl, rfl, rfl, rfl, .positions _ _ hnext⟩
    · exact ⟨rfl, rfl, rfl, rfl, .positions _ _ hnext⟩

end Sample
end SynthData
