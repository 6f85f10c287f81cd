import SynthData.Proofs.Generator.Pass
import SynthData.Proofs.Strategy.Numbers

/-!
# Generators that always answer

A machine serves while a predicate `live` holds if a successful `init` or `reset` makes it
live, and a live one answers every call of `generate` and stays live (`Machine.Serves`).
Answers may be values or none, but no failures.

Number generators of all kinds serve while they run (`NumberGen.serves`), because none of
them fails at a number.
-/
namespace SynthData

variable {σ α β : Type}

/-- **Live states answer**, and a successful `init` or `reset` leads to one. -/
structure Machine.Serves (m : Machine σ α) (live : σ → Prop) : Prop where
  init : ∀ context s streams, (m.init context s streams).1 = .ok () →
    live (m.init context s streams).2.1
  generate : ∀ s, live s → live (m.generate s).2
  answers : ∀ s, live s → ∃ value, (m.generate s).1 = .ok value
  reset : ∀ s streams, (m.reset s streams).1 = .ok () → live (m.reset s streams).2.1

section

variable {m : Machine σ α} {live : σ → Prop}

theorem Machine.Serves.after (hm : m.Serves live) {s : σ} (hs : live s) (n : Nat) :
    live (m.after n s) := by
  induction n with
  | zero => exact hs
  | succ n ih => exact hm.generate _ ih

theorem Machine.Serves.answer (hm : m.Serves live) {s : σ} (hs : live s) (n : Nat) :
    ∃ value, m.answer n s = .ok value :=
  hm.answers _ (hm.after hs n)

/-- A machine that is put together from serving ones serves. -/
theorem Machine.Serves.of_covered {τ : Type} {M : Machine τ α} {live : τ → Prop}
    (h : M.Covered (fun _ => True) fun m wrap => m.Serves (fun s => live (wrap s))) :
    M.Serves live where
  init := by
    intro context t streams hanswer
    obtain ⟨σ, m, wrap, s, rfl, hembeds, hm⟩ := h t trivial
    rw [hembeds.init] at hanswer ⊢
    exact hm.init context s streams hanswer
  generate := by
    intro t ht
    obtain ⟨σ, m, wrap, s, rfl, hembeds, hm⟩ := h t trivial
    rw [hembeds.generate]
    exact hm.generate s ht
  answers := by
    intro t ht
    obtain ⟨σ, m, wrap, s, rfl, hembeds, hm⟩ := h t trivial
    rw [hembeds.generate]
    exact hm.answers s ht
  reset := by
    intro t streams hanswer
    obtain ⟨σ, m, wrap, s, rfl, hembeds, hm⟩ := h t trivial
    rw [hembeds.reset] at hanswer ⊢
    exact hm.reset s streams hanswer

/-! ## Generators over a source -/

/-- The owner runs, and its source is live. -/
structure Wrapped.Live (live : σ → Prop) (w : Wrapped σ) : Prop where
  phase : w.phase = .running
  source : live w.source

namespace Wrapped

variable {w w' : Wrapped σ}

theorem Opens.isLive (hm : m.Serves live) (h : w.Opens m (.ok ()) w') : w'.Live live := by
  cases h with
  | opened context streams _ hinit => exact ⟨rfl, hm.init context w.source streams hinit⟩

theorem Restarts.isLive (hm : m.Serves live) {opened : Bool} (h : w.Restarts m (.ok opened) w') :
    w'.Live live := by
  cases h with
  | opened _ _ hopens => exact hopens.isLive hm
  | restarted streams phase hreset => exact ⟨phase, hm.reset w.source streams hreset⟩

end Wrapped

theorem Mapped.serves (hm : m.Serves live) (owner : String) (f : α → β) :
    (Mapped.machine owner m f).Serves (Wrapped.Live live) where
  init := by
    intro context w streams h
    have hopens := Wrapped.init_opens owner m w context streams
    change (w.init owner m context streams).1 = .ok () at h
    rw [h] at hopens
    exact hopens.isLive hm
  generate := by
    rintro ⟨source, phase⟩ ⟨rfl, hs⟩
    have hnext := hm.generate source hs
    rcases h : m.generate source with ⟨fault | value, source'⟩
    all_goals
      rw [h] at hnext
      simp only [machine, Wrapped.generate, Phase.requireRunning, h]
      exact ⟨rfl, hnext⟩
  answers := by
    rintro ⟨source, phase⟩ ⟨rfl, hs⟩
    obtain ⟨value, hvalue⟩ := hm.answers source hs
    rcases h : m.generate source with ⟨answer, source'⟩
    rw [h] at hvalue
    obtain rfl : answer = .ok value := hvalue
    exact ⟨value.map f, by simp only [machine, Wrapped.generate, Phase.requireRunning, h]⟩
  reset := by
    intro w streams h
    have hrestarts := Wrapped.reset_restarts owner m w streams
    simp only [machine] at h ⊢
    rcases hreset : w.reset owner m streams with ⟨fault | opened, w', streams'⟩
    · rw [hreset] at h
      cases h
    · rw [hreset] at hrestarts
      exact hrestarts.isLive hm

namespace Expand

theorem pull_live (hm : m.Serves live) (depleted : Bool) {w : Wrapped σ} (hw : w.Live live) :
    (∃ value, (pull m depleted w).1 = .ok value) ∧ (pull m depleted w).2.1.Live live := by
  obtain ⟨source, phase⟩ := w
  unfold pull
  cases depleted with
  | true => exact ⟨⟨_, rfl⟩, hw⟩
  | false =>
    have hnext := hm.generate source hw.source
    obtain ⟨value, hvalue⟩ := hm.answers source hw.source
    rcases h : m.generate source with ⟨fault | _ | v, source'⟩
    all_goals rw [h] at hnext hvalue
    · cases hvalue
    · simpa [h] using ⟨hw.phase, hnext⟩
    · simpa [h] using ⟨hw.phase, hnext⟩

theorem fill_live (hm : m.Serves live) (room : Nat) (pool : Array α) (depleted : Bool)
    {w : Wrapped σ} (hw : w.Live live) :
    (fill m room pool depleted w).1 = .ok () ∧
      (fill m room pool depleted w).2.2.2.Live live := by
  induction room generalizing pool depleted w with
  | zero => exact ⟨rfl, hw⟩
  | succ room ih =>
    obtain ⟨⟨value, hvalue⟩, hw'⟩ := pull_live hm depleted hw
    rcases hpull : pull m depleted w with ⟨fault | _ | v, w', depleted'⟩
    all_goals
      rw [hpull] at hvalue hw'
      simp only [fill, hpull]
    · cases hvalue
    · exact ⟨trivial, hw'⟩
    · exact ih (pool.push v) depleted' hw'

theorem handOut_live (hm : m.Serves live) (unique : Bool) (index : Nat) (keep : Bool)
    {e : Expand σ α} (he : e.wrapped.Live live) :
    (∃ value, (handOut m unique index keep e).1 = .ok value) ∧
      (handOut m unique index keep e).2.wrapped.Live live := by
  obtain ⟨wrapped, pool, capacity, depleted, rng⟩ := e
  obtain ⟨⟨value, hvalue⟩, hw'⟩ := pull_live hm depleted he
  unfold handOut
  dsimp only
  split
  · exact ⟨⟨_, rfl⟩, he⟩
  · split
    · exact ⟨⟨_, rfl⟩, he⟩
    · rcases hpull : pull m depleted wrapped with ⟨fault | _ | v, w', depleted'⟩
      all_goals rw [hpull] at hvalue hw'
      · cases hvalue
      · exact ⟨⟨_, rfl⟩, hw'⟩
      · exact ⟨⟨_, rfl⟩, hw'⟩

theorem emit_live (hm : m.Serves live) (unique : Bool) (quota : Float) {e : Expand σ α}
    (he : e.wrapped.Live live) :
    (∃ value, (emit m unique quota e).1 = .ok value) ∧
      (emit m unique quota e).2.wrapped.Live live := by
  obtain ⟨wrapped, pool, capacity, depleted, rng⟩ := e
  obtain ⟨hfilled, hw'⟩ := fill_live hm (capacity.getD 1 - pool.size) pool depleted he
  rcases hfill : fill m (capacity.getD 1 - pool.size) pool depleted wrapped with
    ⟨fault | _, pool', depleted', w'⟩
  all_goals
    rw [hfill] at hfilled hw'
    simp only [emit, refill, hfill]
  · cases hfilled
  · split
    · exact ⟨⟨_, rfl⟩, hw'⟩
    · cases rng with
      | none => exact ⟨⟨_, rfl⟩, hw'⟩
      | some rng =>
        dsimp only
        split
        · exact handOut_live hm true _ _ hw'
        · exact handOut_live hm false _ _ hw'

theorem serves (hm : m.Serves live) (unique : Bool) (quota : Float) :
    (machine m unique quota).Serves (fun e => e.wrapped.Live live) where
  init := by
    intro context e streams h
    have hopens := Wrapped.init_opens owner m e.wrapped context streams
    simp only [machine] at h ⊢
    rcases hinit : e.wrapped.init owner m context streams with ⟨fault | _, w, streams'⟩
    · rw [hinit] at h
      cases h
    · rw [hinit] at hopens
      exact hopens.isLive hm
  generate := by
    intro e he
    simpa only [machine, he.phase, Phase.requireRunning] using (emit_live hm unique quota he).2
  answers := by
    intro e he
    simpa only [machine, he.phase, Phase.requireRunning] using (emit_live hm unique quota he).1
  reset := by
    intro e streams h
    have hrestarts := Wrapped.reset_restarts owner m e.wrapped streams
    simp only [machine] at h ⊢
    rcases hreset : e.wrapped.reset owner m streams with ⟨fault | _ | _, w, streams'⟩
    · rw [hreset] at h
      cases h
    all_goals
      rw [hreset] at hrestarts
      exact hrestarts.isLive hm

end Expand

end

/-! ## Generators of numbers -/

theorem Grid.Begins.running {g g' : Grid Walk} (h : g.Begins (.ok ()) g') :
    g'.phase = .running := by
  cases h with
  | begun rng => rfl

/-- A generator over a grid runs once a pass of its walk has begun. -/
theorem Grid.serves (owner : String) :
    (Grid.machine owner Walk.kind).Serves (fun g => g.phase = .running) where
  init := by
    intro context g streams h
    have hbegins := init_begins owner g context streams
    change (init owner Walk.kind context g streams).1 = .ok () at h
    rw [h] at hbegins
    exact hbegins.running
  generate := by
    rintro ⟨spec, walk, rng, phase⟩ rfl
    cases rng with
    | none | some rng => rfl
  answers := by
    rintro ⟨spec, walk, rng, phase⟩ rfl
    cases rng with
    | none | some rng => exact ⟨_, rfl⟩
  reset := by
    intro g streams h
    have hbegins := reset_begins owner g streams
    rw [h] at hbegins
    exact hbegins.running

namespace Weighted

theorem init_running (context : Context) (w : Weighted) (streams : Streams) :
    (init context w streams).1 = .ok () → (init context w streams).2.1.phase = .running := by
  unfold init
  split
  · nofun
  · split
    · nofun
    · dsimp only
      split
      · nofun
      · split
        · nofun
        · exact fun _ => rfl

theorem serves : machine.Serves (fun w => w.phase = .running) where
  init := init_running
  generate := by
    rintro ⟨spec, weight, table, count, rng, phase⟩ rfl
    cases rng with
    | none => rfl
    | some rng =>
      cases table with
      | none | some table => rfl
  answers := by
    rintro ⟨spec, weight, table, count, rng, phase⟩ rfl
    exact ⟨_, rfl⟩
  reset := by
    rintro ⟨spec, weight, table, count, rng, phase⟩ streams h
    cases phase with
    | created => exact init_running _ _ _ h
    | running => rfl
    | closed => cases h

end Weighted

namespace Inverse

theorem init_running (context : Context) (g : Inverse) (streams : Streams) :
    (init context g streams).1 = .ok () → (init context g streams).2.1.phase = .running := by
  unfold init
  split
  · nofun
  · split
    · nofun
    · dsimp only
      split
      · exact fun _ => rfl
      · nofun

theorem serves : machine.Serves (fun g => g.phase = .running) where
  init := init_running
  generate := by
    rintro ⟨spec, function, least, mass, rng, phase⟩ rfl
    cases rng with
    | none | some rng => rfl
  answers := by
    rintro ⟨spec, function, least, mass, rng, phase⟩ rfl
    exact ⟨_, rfl⟩
  reset := by
    rintro ⟨spec, function, least, mass, rng, phase⟩ streams h
    cases phase with
    | created => exact init_running _ _ _ h
    | running => rfl
    | closed => cases h

end Inverse

theorem Leaf.serves {κ : Type} {owner : String} {start : κ → κ} {next : κ → Option α × κ}
    {threadSafe : κ → Bool} :
    (Leaf.machine owner start next threadSafe).Serves (fun leaf => leaf.phase = .running) where
  init := by
    rintro context ⟨cursor, phase⟩ streams h
    cases phase with
    | created => rfl
    | running | closed => cases h
  generate := by
    rintro ⟨cursor, phase⟩ rfl
    rfl
  answers := by
    rintro ⟨cursor, phase⟩ rfl
    exact ⟨_, rfl⟩
  reset := by
    rintro ⟨cursor, phase⟩ streams h
    cases phase with
    | created | running => rfl
    | closed => cases h

namespace NumberGen

/-- The generator runs, and so does the grid behind a pool or below a weight. -/
def Live : NumberGen → Prop
  | grid _ g => g.phase = .running
  | expand _ _ e => e.wrapped.Live fun g => g.phase = .running
  | weighted _ w => w.Live fun w => w.phase = .running
  | inverse g => g.phase = .running
  | listed l => l.phase = .running

/-- **Number generators of all kinds answer while they run.** -/
theorem serves : machine.Serves Live :=
  .of_covered fun g _ => by
    cases g with
    | grid owner g => exact ⟨_, _, _, g, rfl, embeds_grid owner, Grid.serves owner⟩
    | expand unique quota e =>
      exact ⟨_, _, _, e, rfl, embeds_expand unique quota,
        Expand.serves (Grid.serves stepOwner) unique quota⟩
    | weighted owner w =>
      exact ⟨_, _, _, w, rfl, embeds_weighted owner, Mapped.serves Weighted.serves owner id⟩
    | inverse g => exact ⟨_, _, _, g, rfl, embeds_inverse, Inverse.serves⟩
    | listed l => exact ⟨_, _, _, l, rfl, embeds_listed, Leaf.serves⟩

end NumberGen
end SynthData
