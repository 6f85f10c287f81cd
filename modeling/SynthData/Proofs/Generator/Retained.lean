import SynthData.Proofs.Generator.Alike
import SynthData.Proofs.Generator.Loader
import SynthData.Strategy.Basic

/-!
# Lists that outlast a failed reset

A reset of a sampler, or of a generator of weighted items, resets the source, reads it, asks
whether there is more of it, and prepares the choice among what was read.  Each of these steps can
fail, and by then the source has been rewound and perhaps been read in part.  Everything else is
put in place in the last step only, so a reset that fails has touched nothing but the source
(`Machine.Loads.place_of_reset_failed`).

Nobody looks at the source before the next reset.  Hence a failed reset cannot be noticed until
then (`Machine.Retains`).
-/
namespace SynthData

variable {σ ν α : Type}

/-- **A call of `reset` that fails cannot be noticed.**  What `seen` shows of a running generator
stays as it was, and until the next call of `reset` or `close` the generator answers as it would
have answered without the call. -/
def Machine.Retains {β : Type} (m : Machine σ α) (seen : σ → β) : Prop :=
  ∀ s streams fault, m.phase s = .running → (m.reset s streams).1 = .error fault →
    let s' := (m.reset s streams).2.1
    seen s' = seen s ∧
      ∀ calls, (∀ c ∈ calls, c ≠ Machine.Call.reset ∧ c ≠ Machine.Call.close) →
        ∀ streams₁ streams₂,
          (m.generate (m.run calls (.start s' streams₁)).state).1 =
            (m.generate (m.run calls (.start s streams₂)).state).1

/-- A failed reset that leaves states alike cannot be noticed. -/
theorem Machine.Equates.retains {β : Type} {m : Machine σ α} {alike : σ → σ → Prop} {seen : σ → β}
    (hm : m.Equates alike)
    (hinit : ∀ context s t streams streams', alike s t →
      alike (m.init context s streams).2.1 (m.init context t streams').2.1)
    (hreset : ∀ s streams fault, m.phase s = .running → (m.reset s streams).1 = .error fault →
      seen (m.reset s streams).2.1 = seen s ∧ alike (m.reset s streams).2.1 s) :
    m.Retains seen := by
  intro s streams fault hs h s'
  obtain ⟨hseen, halike⟩ := hreset s streams fault hs h
  exact ⟨hseen, fun calls hcalls streams₁ streams₂ =>
    hm.answer _ _ (hm.run hinit halike hcalls streams₁ streams₂)⟩

/-- **A generator that reads its source into memory retains its list** if neither its answers nor
what is seen of it depend on the source. -/
theorem Machine.Loads.retains {τ β γ : Type} {M : Machine τ β} {m : Machine σ α} {L : Loader σ τ}
    {alike : τ → τ → Prop} {seen : τ → γ} (hM : M.Loads m L) (halike : M.Equates alike)
    (hrunning : ∀ s t, alike s t →
      (L.wrapped s).phase = .running ∧ (L.wrapped t).phase = .running)
    (hplace : ∀ t source, (L.wrapped t).phase = .running →
      let t' := L.place t ⟨source, .running⟩ (L.context t)
      seen t' = seen t ∧ alike t' t) : M.Retains seen := by
  refine halike.retains ?init ?reset
  case init =>
    intro context s t streams streams' hst
    obtain ⟨hs, ht⟩ := hrunning s t hst
    rw [hM.init_state (by rw [hs]; nofun), hM.init_state (by rw [ht]; nofun)]
    exact hst
  case reset =>
    intro t streams fault ht h
    rw [hM.phase] at ht
    obtain ⟨source, hsource⟩ := hM.place_of_reset_failed ht h
    rw [hsource]
    exact hplace t source ht

/-- **Samplers retain their list.** -/
theorem Sample.retains (m : Machine σ α) (d : Distribution ν) (unique : Bool) :
    (machine m d unique).Retains fun s => (s.values, s.truncated) :=
  (loads m d unique).retains (equates d.machine.equates_eq m unique)
    (fun _ _ h => ⟨h.running, h.running'⟩)
    fun s _ h => ⟨rfl, rfl, h, rfl, .refl s.chooser⟩

namespace Individual

/-- Generators that run with the same items and the same random stream. -/
structure Alike (g g' : Individual σ α) : Prop where
  running : g.wrapped.phase = .running
  running' : g'.wrapped.phase = .running
  sample : g.sample = g'.sample
  rng : g.rng = g'.rng

/-- **The items and the random stream decide what is handed out.** -/
theorem equates (m : Machine σ α) (weight : α → Float) : (machine m weight).Equates Alike := by
  refine .of_step ?_
  rintro ⟨⟨source, _⟩, known, sample, rng, truncated⟩
    ⟨⟨source', _⟩, known', _, _, truncated'⟩ ⟨rfl, rfl, rfl, rfl⟩
  cases sample with
  | none => exact ⟨rfl, rfl, rfl, rfl, rfl⟩
  | some sample =>
    cases rng with
    | none => exact ⟨rfl, rfl, rfl, rfl, rfl⟩
    | some rng => exact ⟨rfl, rfl, rfl, rfl, rfl⟩

/-- **Generators of weighted items retain their items.** -/
theorem retains (m : Machine σ α) (weight : α → Float) :
    (machine m weight).Retains fun g => (g.sample, g.truncated) :=
  (loads m weight).retains (equates m weight) (fun _ _ h => ⟨h.running, h.running'⟩)
    fun _ _ h => ⟨rfl, rfl, h, rfl, rfl⟩

end Individual

/-- **A reset that fails is not noticed**, neither by a sampler nor by a generator of weighted
items, whatever their source, and at whatever stage it fails: their lists and what is known of the
rest of the source stay, and until the next reset or close every answer is the one that would have
been given anyway. -/
theorem reset_retained (m : Machine σ α) (d : Distribution ν) (unique : Bool)
    (weight : α → Float) :
    ((Sample.machine m d unique).Retains fun s => (s.values, s.truncated)) ∧
      (Individual.machine m weight).Retains fun g => (g.sample, g.truncated) :=
  ⟨Sample.retains m d unique, Individual.retains m weight⟩

/-- One more number in every pass, beginning with a single one. -/
def growing : Machine (Leaf Iterated) Nat :=
  Iterated.machine fun pass i => if i ≤ pass then some (pass + i) else none

/-- The first number alone has a weight. -/
def firstOnly : Machine (Individual (Leaf Iterated) Nat) Nat :=
  Individual.machine growing fun n => if n = 0 then 1 else 0

theorem reset_retained_growing :
    let streams := Streams.start fun _ => .ofSeed 0
    let sampler := Sample.machine growing (Strategy.cumulated 1 (by decide)).distribution true
    let s := (sampler.init ⟨{}, 0⟩ (.new Iterated.new) streams).2.1
    let g := (firstOnly.init ⟨{}, 0⟩ (.new Iterated.new) streams).2.1
    (sampler.reset s streams).1 = .error .cumulatedUnique ∧
      (sampler.reset s streams).2.1.values = #[0] ∧
      (sampler.generate (sampler.reset s streams).2.1).1 = (sampler.generate s).1 ∧
      (firstOnly.reset g streams).1 = .error (.zeroTotalWeight 2) ∧
      (firstOnly.generate (firstOnly.reset g streams).2.1).1 = (firstOnly.generate g).1 := by
  have hzero :
      let streams := Streams.start fun _ => .ofSeed 0
      let g := (firstOnly.init ⟨{}, 0⟩ (.new Iterated.new) streams).2.1
      (firstOnly.reset g streams).1 = .error (.zeroTotalWeight 2) := rfl
  intro streams sampler s g
  obtain ⟨hsampler, hweigher⟩ := reset_retained growing
    (Strategy.cumulated 1 (by decide)).distribution true fun n => if n = 0 then 1 else 0
  have hunique : (sampler.reset s streams).1 = .error .cumulatedUnique := rfl
  obtain ⟨hvalues, hanswers⟩ := hsampler s streams .cumulatedUnique rfl hunique
  obtain ⟨-, hanswers'⟩ := hweigher g streams (.zeroTotalWeight 2) rfl hzero
  exact ⟨hunique, congrArg Prod.fst hvalues, hanswers [] nofun streams streams, hzero,
    hanswers' [] nofun streams streams⟩

end SynthData
