import SynthData.Generator.Filtered
import SynthData.Proofs.Generator.Alike
import SynthData.Proofs.Generator.Completeness
import SynthData.Proofs.Generator.Serving

/-!
# Passes that repeat the first one

A generator repeats its first pass if a reset succeeds at any time before it is closed, and is
followed by the answers that followed the first initialization (`Machine.Repeats`).

A machine returns to a state if every reset does, up to what cannot be told apart from it
(`Machine.Returns`).  Lists return to their beginning.  A head returns if its source does.  A
sampler over a source that returns reads the same list again; it returns itself if the
distribution begins all its numbers alike (`Distribution.Steady`).
-/
namespace SynthData

variable {σ ν α : Type}

namespace Machine

/-- **Every pass is the first one again.**  Whatever has been called but `close`, a reset succeeds,
and the answers that follow are those that follow the present state. -/
def Repeats (m : Machine σ α) (s : σ) : Prop :=
  ∀ calls, (∀ c ∈ calls, c ≠ Call.close) → ∀ streams streams',
    let r := m.run calls (.start s streams)
    (m.reset r.state streams').1 = .ok () ∧
      ∀ n, m.answer n (m.reset r.state streams').2.1 = m.answer n s

/-- **A reset returns to the start.**  The start is live, no call but `close` ends that, and a
reset of a live state succeeds and leads to a state that is like the start. -/
structure Returns (m : Machine σ α) (live : σ → Prop) (alike : σ → σ → Prop) (start : σ) :
    Prop where
  equates : m.Equates alike
  begun : live start
  init : ∀ context s streams, live s → live (m.init context s streams).2.1
  generate : ∀ s, live s → live (m.generate s).2
  reset : ∀ s streams, live s → (m.reset s streams).1 = .ok () ∧
    live (m.reset s streams).2.1 ∧ alike (m.reset s streams).2.1 start

variable {m : Machine σ α} {live : σ → Prop} {alike : σ → σ → Prop} {start : σ}

theorem Returns.call (hm : m.Returns live alike start) {r : Run σ α} (hr : live r.state) {c : Call}
    (hc : c ≠ .close) : live (m.call r c).state := by
  cases c with
  | init context => exact hm.init context r.state r.streams hr
  | generate => rw [(call_generate r).1]; exact hm.generate r.state hr
  | reset => exact (hm.reset r.state r.streams hr).2.1
  | close => exact absurd rfl hc

theorem Returns.run (hm : m.Returns live alike start) {r : Run σ α} (hr : live r.state)
    {calls : List Call} (hcalls : ∀ c ∈ calls, c ≠ .close) : live (m.run calls r).state := by
  induction calls generalizing r with
  | nil => exact hr
  | cons c calls ih =>
    obtain ⟨hc, hcalls⟩ := List.forall_mem_cons.mp hcalls
    exact ih (hm.call hr hc) hcalls

theorem Returns.repeats (hm : m.Returns live alike start) : m.Repeats start := by
  intro calls hcalls streams streams' r
  obtain ⟨hanswer, -, halike⟩ := hm.reset r.state streams' (hm.run hm.begun hcalls)
  exact ⟨hanswer, hm.equates.answers halike⟩

/-- A machine that treats states in the same way returns to the same start. -/
theorem Returns.embed {τ : Type} {M : Machine τ α} {wrap : σ → τ}
    (hm : m.Returns live alike start) (h : m.Embeds M wrap) :
    M.Returns (fun t => ∃ s, live s ∧ t = wrap s)
      (fun t t' => ∃ s s', alike s s' ∧ t = wrap s ∧ t' = wrap s') (wrap start) where
  equates := hm.equates.embed h
  begun := ⟨start, hm.begun, rfl⟩
  init := by
    rintro context _ streams ⟨s, hs, rfl⟩
    rw [h.init]
    exact ⟨_, hm.init context s streams hs, rfl⟩
  generate := by
    rintro _ ⟨s, hs, rfl⟩
    rw [h.generate]
    exact ⟨_, hm.generate s hs, rfl⟩
  reset := by
    rintro _ streams ⟨s, hs, rfl⟩
    obtain ⟨hanswer, hlive, halike⟩ := hm.reset s streams hs
    rw [h.reset]
    exact ⟨hanswer, ⟨_, hlive, rfl⟩, _, _, halike, rfl, rfl⟩

end Machine

/-! ## Lists -/

/-- **A list returns to its beginning.** -/
theorem Listed.returns (values : Array α) :
    (Listed.machine (α := α)).Returns
      (fun l => l.phase = .running ∧ l.cursor.values = values) Eq
      ⟨⟨values, 0⟩, .running⟩ where
  equates := Machine.equates_eq _
  begun := ⟨rfl, rfl⟩
  init := by
    rintro context ⟨cursor, _⟩ streams ⟨rfl, hvalues⟩
    exact ⟨rfl, hvalues⟩
  generate := by
    rintro ⟨cursor, _⟩ ⟨rfl, hvalues⟩
    refine ⟨rfl, ?_⟩
    show cursor.next.2.values = values
    unfold Listed.next
    split
    · exact hvalues
    · exact hvalues
  reset := by
    rintro ⟨cursor, _⟩ streams ⟨rfl, rfl⟩
    exact ⟨rfl, ⟨rfl, rfl⟩, rfl⟩

section

variable {m : Machine σ α} {live : σ → Prop} {alike : σ → σ → Prop} {start : σ}

/-- A running generator over a source that returns resets it. -/
theorem Wrapped.reset_live (hm : m.Returns live alike start) (owner : String) {w : Wrapped σ}
    (hw : w.Live live) (streams : Streams) :
    ∃ source streams', w.reset owner m streams = (.ok false, ⟨source, .running⟩, streams') ∧
      live source ∧ alike source start := by
  obtain ⟨source, _⟩ := w
  obtain ⟨rfl, hsource⟩ := hw
  obtain ⟨hanswer, hlive, halike⟩ := hm.reset source streams hsource
  rcases hreset : m.reset source streams with ⟨answer, source', streams'⟩
  rw [hreset] at hanswer hlive halike
  obtain rfl : answer = .ok () := hanswer
  exact ⟨source', streams', by simp only [Wrapped.reset, hreset], hlive, halike⟩

/-! ## Heads -/

namespace Head

variable {m : Machine σ α} {size : ℕ}

/-- As long as values are wanted, a head answers what its source answers. -/
theorem generate_of_wanted {source : σ} {emitted : ℕ} (h : emitted < size) :
    (machine m size).generate ⟨⟨source, .running⟩, emitted⟩ =
      ((m.generate source).1, ⟨⟨(m.generate source).2, .running⟩,
        emitted + (Machine.valueOf (m.generate source).1).toList.length⟩) := by
  simp only [machine, Phase.requireRunning, if_neg (Nat.not_le.mpr h), Wrapped.generate]
  rcases hgenerate : m.generate source with ⟨_ | _ | v, source'⟩
  all_goals
    simp only [hgenerate]
    rfl

/-- Otherwise it leaves its source alone. -/
theorem generate_of_enough {source : σ} {emitted : ℕ} (h : size ≤ emitted) :
    (machine m size).generate ⟨⟨source, .running⟩, emitted⟩ =
      (.ok none, ⟨⟨source, .running⟩, emitted⟩) :=
  if_pos h

/-- Heads that run over sources that are alike and have passed the same number of values on. -/
structure Alike (alike : σ → σ → Prop) (head head' : Head σ) : Prop where
  running : head.wrapped.phase = .running
  running' : head'.wrapped.phase = .running
  source : alike head.wrapped.source head'.wrapped.source
  emitted : head.emitted = head'.emitted

theorem equates (hm : m.Equates alike) (size : Nat) : (machine m size).Equates (Alike alike) := by
  refine .of_step ?_
  rintro ⟨⟨s, _⟩, emitted⟩ ⟨⟨t, _⟩, _⟩ ⟨rfl, rfl, hst, rfl⟩
  have hst : alike s t := hst
  by_cases hwanted : emitted < size
  · rw [generate_of_wanted hwanted, generate_of_wanted hwanted, hm.answer s t hst]
    exact ⟨rfl, rfl, rfl, hm.generate s t hst, rfl⟩
  · rw [generate_of_enough (Nat.not_lt.mp hwanted), generate_of_enough (Nat.not_lt.mp hwanted)]
    exact ⟨rfl, rfl, rfl, hst, rfl⟩

/-- **A head returns if its source does.** -/
theorem returns (hm : m.Returns live alike start) (size : Nat) :
    (machine m size).Returns (fun head => head.wrapped.Live live) (Alike alike)
      ⟨⟨start, .running⟩, 0⟩ where
  equates := equates hm.equates size
  begun := ⟨rfl, hm.begun⟩
  init := by
    rintro context ⟨⟨s, _⟩, emitted⟩ streams ⟨rfl, hs⟩
    exact ⟨rfl, hs⟩
  generate := by
    rintro ⟨⟨s, _⟩, emitted⟩ ⟨rfl, hs⟩
    have hs : live s := hs
    by_cases hwanted : emitted < size
    · rw [generate_of_wanted hwanted]
      exact ⟨rfl, hm.generate s hs⟩
    · rw [generate_of_enough (Nat.not_lt.mp hwanted)]
      exact ⟨rfl, hs⟩
  reset := by
    intro head streams hhead
    obtain ⟨source, streams', hreset, hlive, halike⟩ := Wrapped.reset_live hm owner hhead streams
    simp only [machine, hreset]
    exact ⟨trivial, ⟨rfl, hlive⟩, rfl, rfl, halike, rfl⟩

end Head

/-! ## Samplers -/

/-- **The numbers begin alike**: those that are made for a range can be initialized with any
random streams, and cannot be told apart then. -/
structure Distribution.Steady (d : Distribution ν) (unique : Bool) (alike : ν → ν → Prop) :
    Prop where
  equates : d.machine.Equates alike
  init : ∀ spec numbers, d.numbers spec unique = .ok numbers → ∀ context streams,
    (d.machine.init context numbers streams).1 = .ok ()
  alike : ∀ spec numbers, d.numbers spec unique = .ok numbers →
    ∀ context streams streams', alike (d.machine.init context numbers streams).2.1
      (d.machine.init context numbers streams').2.1

namespace Sample

variable {d : Distribution ν} {unique : Bool} {alikeNumbers : ν → ν → Prop} {context : Context}
  {values : Array α} {truncated : Bool} {chooser : Chooser ν α} {streams : Streams}

/-- The choice among the same values is the same, whatever the random streams. -/
theorem choose_alike (hd : d.Steady unique alikeNumbers)
    (h : (choose d unique context values streams).1 = .ok chooser) (streams' : Streams) :
    ∃ chooser', (choose d unique context values streams').1 = .ok chooser' ∧
      Chooser.Alike alikeNumbers chooser' chooser := by
  obtain ⟨list⟩ := values
  rcases list with _ | ⟨a, _ | ⟨b, list⟩⟩
  · obtain rfl : .nothing = chooser := Except.ok.inj h
    exact ⟨_, rfl, .nothing⟩
  · cases unique with
    | true | false =>
      obtain rfl := Except.ok.inj h
      exact ⟨_, rfl, .single _⟩
  · -- several values: the distribution is asked for numbers, which are the same each time
    simp only [choose] at h ⊢
    rcases hnumbers : d.numbers (.indices (Array.mk (a :: b :: list)).size) unique with
      fault | numbers
    · rw [hnumbers] at h
      cases h
    · have hfirst := hd.init _ numbers hnumbers context streams
      have hsecond := hd.init _ numbers hnumbers context streams'
      have halike := hd.alike _ numbers hnumbers context streams' streams
      rcases hinit : d.machine.init context numbers streams with ⟨answer, numbers₁, streams₁⟩
      rcases hinit' : d.machine.init context numbers streams' with ⟨answer', numbers₂, streams₂⟩
      rw [hinit] at hfirst
      rw [hinit'] at hsecond
      rw [hinit, hinit'] at halike
      obtain rfl : answer = .ok () := hfirst
      obtain rfl : answer' = .ok () := hsecond
      simp only [hnumbers, hinit] at h
      obtain rfl := Except.ok.inj h
      simp only [hinit']
      exact ⟨_, rfl, .positions _ _ halike⟩

/-- **A sampler returns if its source does**: it reads the same list again and makes the same
choice among it. -/
theorem returns (hm : m.Returns live alike start) (hd : d.Steady unique alikeNumbers)
    (hread : (m.readAhead context.settings.cacheSize start).1 = .ok (values, truncated))
    (hchoose : (choose d unique context values streams).1 = .ok chooser) :
    (machine m d unique).Returns (Running live context) (Alike alikeNumbers)
      ⟨⟨(m.readAhead context.settings.cacheSize start).2, .running⟩, some context, values,
        truncated, chooser⟩ where
  equates := equates hd.equates m unique
  begun := ⟨rfl, m.readAhead_keeps hm.generate _ hm.begun, rfl⟩
  init := by
    intro context' s streams' hs
    rw [(loads m d unique).init_state (t := s) (hs.phase ▸ nofun)]
    exact hs
  generate := by
    intro s hs
    obtain ⟨hwrapped, hcontext⟩ := generate_keeps (m := m) (d := d) unique s
    exact ⟨hwrapped ▸ hs.phase, hwrapped ▸ hs.source, hcontext ▸ hs.context⟩
  reset := by
    rintro ⟨⟨source, _⟩, _, values', truncated', chooser'⟩ streams' ⟨rfl, hs, rfl⟩
    obtain ⟨source', streams₁, hreset, hlive, halike⟩ :=
      Wrapped.reset_live hm owner (w := ⟨source, .running⟩) ⟨rfl, hs⟩ streams'
    -- the source is read from a state like its start, so the same list is read
    have hagain := hm.equates.readAhead halike context.settings.cacheSize
    have hleft := m.readAhead_keeps hm.generate context.settings.cacheSize hlive
    obtain ⟨chooser₁, hchooser, hsame⟩ := choose_alike hd hchoose streams₁
    rcases hlist : m.readAhead context.settings.cacheSize source' with ⟨answer, source₁⟩
    rw [hlist] at hagain hleft
    obtain rfl : answer = .ok (values, truncated) := hagain.trans hread
    rcases hchosen : choose d unique context values streams₁ with ⟨answer, streams₂⟩
    rw [hchosen] at hchooser
    obtain rfl : answer = .ok chooser₁ := hchooser
    simp only [machine, hreset, materialize, hlist, hchosen]
    exact ⟨trivial, ⟨rfl, hleft, rfl⟩, rfl, rfl, rfl, hsame⟩

/-- A sampler that can be initialized has read its source and made its choice. -/
theorem init_new {source : σ}
    (h : (init m d unique context (new source) streams).1 = .ok ()) :
    ∃ values truncated chooser streams',
      (m.init context source streams).1 = .ok () ∧
      (m.readAhead context.settings.cacheSize (m.init context source streams).2.1).1 =
        .ok (values, truncated) ∧
      (choose d unique context values streams').1 = .ok chooser ∧
      (init m d unique context (new source) streams).2.1 =
        ⟨⟨(m.readAhead context.settings.cacheSize (m.init context source streams).2.1).2, .running⟩,
          some context, values, truncated, chooser⟩ := by
  rcases hinit : m.init context source streams with ⟨fault | _, source', streams'⟩
  · simp [init, new, Wrapped.init, Wrapped.new, Phase.requireCreated, hinit] at h
  · have hresult : init m d unique context (new source) streams =
        materialize m d unique context ⟨⟨source', .running⟩, some context, #[], false, .nothing⟩
          streams' := by
      simp only [init, new, Wrapped.init, Wrapped.new, Phase.requireCreated, hinit]
    rw [hresult] at h ⊢
    unfold materialize at h ⊢
    rcases hread : m.readAhead context.settings.cacheSize source' with
      ⟨fault | ⟨values, truncated⟩, source''⟩
    · simp [hread] at h
    · rcases hchoose : choose d unique context values streams' with ⟨fault | chooser, streams''⟩
      · simp [hread, hchoose] at h
      · refine ⟨values, truncated, chooser, streams', rfl, ?_⟩
        simp only [hchoose]
        exact ⟨trivial, trivial, trivial⟩

end Sample

end

end SynthData
