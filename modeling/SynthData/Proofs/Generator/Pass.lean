import Mathlib.Data.Finset.Card
import Mathlib.Data.Set.Finite.Basic
import SynthData.Proofs.Generator.Run

/-!
# A pass without interruption

`Machine.after` and `Machine.answer` follow a generator that is asked again and
again, with no other call in between.  `Machine.stream` lists the values among
the first answers.

`Machine.HandsOut` says of a state which values it hands out until it runs out for
good.  A generator that uses up what is pending and loses none of it hands out
exactly the pending values (`Empties.handsOut`), and one that begins such a pass
whenever it is initialized or reset is in the course of one at any time
(`Supplies.run`), and begins another one whenever it is not refused for its phase
(`Supplies.always`).
-/
namespace SynthData.Machine

variable {σ α : Type} (m : Machine σ α)

/-- The state after a number of calls of `generate`. -/
def after : Nat → σ → σ
  | 0, s => s
  | n + 1, s => (m.generate (after n s)).2

/-- The answer to the call of `generate` that comes after `n` others. -/
def answer (n : Nat) (s : σ) : Except Fault (Option α) :=
  (m.generate (m.after n s)).1

/-- The value that an answer hands out, if there is one. -/
def valueOf : Except Fault (Option α) → Option α
  | .ok value => value
  | .error _ => none

/-- The values that the first `n` calls of `generate` hand out, in their order. -/
def stream (n : Nat) (s : σ) : List α :=
  (List.range n).filterMap fun i => valueOf (m.answer i s)

theorem stream_succ (n : Nat) (s : σ) :
    m.stream (n + 1) s = m.stream n s ++ (valueOf (m.answer n s)).toList := by
  rw [stream, stream, List.range_succ, List.filterMap_append]
  cases h : valueOf (m.answer n s) <;> simp [h]

theorem after_succ (n : Nat) (s : σ) : m.after (n + 1) s = m.after n (m.generate s).2 := by
  induction n with
  | zero => rfl
  | succ n ih =>
    show (m.generate (m.after (n + 1) s)).2 = _
    rw [ih]
    rfl

theorem answer_succ (n : Nat) (s : σ) : m.answer (n + 1) s = m.answer n (m.generate s).2 := by
  rw [answer, after_succ]
  rfl

theorem after_add (k n : Nat) (s : σ) : m.after (k + n) s = m.after n (m.after k s) := by
  induction n with
  | zero => rfl
  | succ n ih =>
    show (m.generate (m.after (k + n) s)).2 = _
    rw [ih]
    rfl

theorem answer_add (k n : Nat) (s : σ) : m.answer (k + n) s = m.answer n (m.after k s) := by
  rw [answer, after_add]
  rfl

theorem stream_add (k n : Nat) (s : σ) :
    m.stream (k + n) s = m.stream k s ++ m.stream n (m.after k s) := by
  induction n with
  | zero => simp [stream]
  | succ n ih => rw [← Nat.add_assoc, stream_succ, ih, stream_succ, answer_add, List.append_assoc]

theorem valueOf_eq_some {answer : Except Fault (Option α)} {v : α} :
    valueOf answer = some v ↔ answer = .ok (some v) := by
  rcases answer with _ | _ <;> simp [valueOf]

theorem mem_stream {n : Nat} {s : σ} {v : α} :
    v ∈ m.stream n s ↔ ∃ i < n, m.answer i s = .ok (some v) := by
  rw [stream, List.mem_filterMap]
  exact exists_congr fun i => and_congr List.mem_range valueOf_eq_some

theorem Keeps.after {m : Machine σ α} {inv : σ → Prop} (hm : m.Keeps inv) {s : σ} (hs : inv s)
    (n : Nat) : inv (m.after n s) := by
  induction n with
  | zero => exact hs
  | succ n ih => exact hm.generate _ ih

/-! ## Passes that end -/

/-- The state hands out the values of a list, in their order, and nothing after
them. -/
def HandsOut (s : σ) (values : List α) : Prop :=
  ∀ i, m.answer i s = .ok values[i]?

variable {m} {s : σ} {v : α} {values : List α}

theorem HandsOut.cons (h : (m.generate s).1 = .ok (some v))
    (hrest : m.HandsOut (m.generate s).2 values) : m.HandsOut s (v :: values) := by
  intro i
  cases i with
  | zero => exact h
  | succ i => rw [answer_succ, hrest i, List.getElem?_cons_succ]

/-- A state that has run out, and is followed by such states only. -/
theorem HandsOut.nil (ended : σ → Prop)
    (h : ∀ s, ended s → (m.generate s).1 = .ok none ∧ ended (m.generate s).2) (hs : ended s) :
    m.HandsOut s [] := by
  intro i
  induction i generalizing s with
  | zero => exact (h s hs).1
  | succ i ih => rw [answer_succ, ih (h s hs).2, List.getElem?_nil, List.getElem?_nil]

theorem HandsOut.head (h : m.HandsOut s (v :: values)) :
    ∃ s', m.generate s = (.ok (some v), s') ∧ m.HandsOut s' values :=
  ⟨_, Prod.ext (h 0) rfl, fun i => by rw [← answer_succ, h (i + 1), List.getElem?_cons_succ]⟩

theorem HandsOut.ended (h : m.HandsOut s []) :
    ∃ s', m.generate s = (.ok none, s') ∧ m.HandsOut s' [] :=
  ⟨_, Prod.ext (h 0) rfl, fun i => by
    rw [← answer_succ, h (i + 1), List.getElem?_nil, List.getElem?_nil]⟩

/-- A machine whose calls of `generate` another one passes on hands out the same values
there. -/
theorem HandsOut.passed_on {τ : Type} {M : Machine τ α} (hs : m.HandsOut s values) (wrap : σ → τ)
    (h : ∀ s, M.generate (wrap s) = ((m.generate s).1, wrap (m.generate s).2)) :
    M.HandsOut (wrap s) values := by
  have hafter (i : Nat) : M.after i (wrap s) = wrap (m.after i s) := by
    induction i with
    | zero => rfl
    | succ i ih => rw [after, ih, h, after]
  intro i
  rw [answer, hafter, h]
  exact hs i

/-! ## Reading in advance -/

/-- What every call of `generate` keeps is kept while values are read in advance. -/
theorem drainInto_keeps {inv : σ → Prop} (hinv : ∀ s, inv s → inv (m.generate s).2)
    (read : Array α) (limit : Nat) (hs : inv s) : inv (m.drainInto read limit s).2 := by
  have hleft := hinv s hs
  fun_induction m.drainInto read limit s with
  | case1 => exact hs
  | case2 read s limit fault s' hgenerate => simpa [hgenerate] using hleft
  | case3 read s limit s' hgenerate => simpa [hgenerate] using hleft
  | case4 read s limit v s' hgenerate ih =>
    have hs' : inv s' := by simpa [hgenerate] using hleft
    exact ih hs' (hinv s' hs')

theorem readAhead_keeps {inv : σ → Prop} (hinv : ∀ s, inv s → inv (m.generate s).2)
    (limit : Nat) (hs : inv s) : inv (m.readAhead limit s).2 := by
  have hleft := drainInto_keeps hinv #[] limit hs
  unfold readAhead
  rcases hdrain : m.drainInto #[] limit s with ⟨fault | read, s'⟩
  all_goals rw [hdrain] at hleft
  · exact hleft
  · by_cases hsize : read.size = limit
    · have hnext := hinv s' hleft
      simp only [if_pos hsize]
      rcases hgenerate : m.generate s' with ⟨fault | next, s''⟩
      all_goals
        rw [hgenerate] at hnext
        exact hnext
    · simpa only [if_neg hsize] using hleft

theorem HandsOut.drainInto (h : m.HandsOut s values) (read : Array α) (limit : Nat) :
    (m.drainInto read limit s).1 = .ok (read ++ (values.take limit).toArray) ∧
      m.HandsOut (m.drainInto read limit s).2 (values.drop limit) := by
  induction limit generalizing s read values with
  | zero => exact ⟨by simp [Machine.drainInto], h⟩
  | succ limit ih =>
    cases values with
    | nil =>
      obtain ⟨s', hgenerate, hnext⟩ := h.ended
      simpa [Machine.drainInto, hgenerate] using hnext
    | cons v values =>
      obtain ⟨s', hgenerate, hnext⟩ := h.head
      simpa [Machine.drainInto, hgenerate] using ih hnext (read.push v)

/-- All values are read if there is room for them. -/
theorem HandsOut.readAhead (h : m.HandsOut s values) {limit : Nat}
    (hlimit : values.length ≤ limit) :
    (m.readAhead limit s).1 = .ok (values.toArray, false) := by
  obtain ⟨hanswer, hrest⟩ := h.drainInto #[] limit
  rw [List.take_of_length_le hlimit, Array.empty_append] at hanswer
  rw [List.drop_of_length_le hlimit] at hrest
  unfold Machine.readAhead
  rcases hdrain : m.drainInto #[] limit s with ⟨answer, s'⟩
  rw [hdrain] at hanswer hrest
  obtain rfl : answer = .ok values.toArray := hanswer
  dsimp only
  split
  · obtain ⟨s'', hgenerate, -⟩ := hrest.ended
    rw [hgenerate]
    rfl
  · rfl

/-! ## Values that are used up and not lost -/

/-- **What is pending is handed out.**  A live state answers; the answer is a value
that was pending and is no longer, and every other pending value stays so.  There is
an answer as long as a value is pending. -/
structure Empties (m : Machine σ α) (live : σ → Prop) (pending : σ → α → Prop) : Prop where
  generate : ∀ s, live s → live (m.generate s).2
  answers : ∀ s, live s → ∃ value, (m.generate s).1 = .ok value
  spent : ∀ s a, live s → (m.generate s).1 = .ok (some a) →
    pending s a ∧ ¬ pending (m.generate s).2 a
  generate_pending : ∀ s a, live s → pending (m.generate s).2 a → pending s a
  kept : ∀ s a, live s → pending s a →
    ∃ b, (m.generate s).1 = .ok (some b) ∧ (a = b ∨ pending (m.generate s).2 a)

section

variable {live : σ → Prop} {pending : σ → α → Prop}

theorem Empties.generate_none (hm : m.Empties live pending) (hs : live s)
    (hnone : ∀ a, ¬ pending s a) : (m.generate s).1 = .ok none := by
  obtain ⟨_ | a, hanswer⟩ := hm.answers s hs
  · exact hanswer
  · exact absurd (hm.spent s a hs hanswer).1 (hnone a)

/-- **The pending values are handed out**, each of them once. -/
theorem Empties.handsOut (hm : m.Empties live pending) (hs : live s)
    (hfinite : {a | pending s a}.Finite) :
    ∃ values, m.HandsOut s values ∧ values.Nodup ∧ ∀ a, a ∈ values ↔ pending s a := by
  classical
  -- the induction is on the set of pending values, of which each answer takes one out
  obtain ⟨rest, hrest⟩ : ∃ rest : Finset α, ∀ a, a ∈ rest ↔ pending s a :=
    ⟨hfinite.toFinset, fun a => by simp⟩
  clear hfinite
  induction rest using Finset.strongInduction generalizing s with
  | H rest ih =>
    rcases rest.eq_empty_or_nonempty with rfl | ⟨a, ha⟩
    · have hnone : ∀ a, ¬ pending s a := fun a => by simp [← hrest a]
      refine ⟨[], HandsOut.nil (fun s => live s ∧ ∀ a, ¬ pending s a) ?_ ⟨hs, hnone⟩,
        List.nodup_nil, fun a => by simp [hnone a]⟩
      rintro s ⟨hs, hnone⟩
      exact ⟨hm.generate_none hs hnone, hm.generate s hs,
        fun a ha => hnone a (hm.generate_pending s a hs ha)⟩
    · obtain ⟨b, hanswer, -⟩ := hm.kept s a hs ((hrest a).mp ha)
      obtain ⟨hb, hgone⟩ := hm.spent s b hs hanswer
      have hleft (a : α) : a ∈ rest.erase b ↔ pending (m.generate s).2 a := by
        rw [Finset.mem_erase, hrest]
        refine ⟨fun ⟨hne, ha⟩ => ?_, fun ha => ⟨?_, hm.generate_pending s a hs ha⟩⟩
        · obtain ⟨b', hanswer', ha⟩ := hm.kept s a hs ha
          obtain rfl := Option.some.inj (Except.ok.inj (hanswer.symm.trans hanswer'))
          exact ha.resolve_left hne
        · rintro rfl
          exact hgone ha
      obtain ⟨values, hvalues, hnodup, hmem⟩ :=
        ih (rest.erase b) (Finset.erase_ssubset ((hrest b).mpr hb)) (hm.generate s hs) hleft
      refine ⟨b :: values, .cons hanswer hvalues,
        List.nodup_cons.mpr ⟨fun hmem' => hgone ((hmem b).mp hmem'), hnodup⟩, fun a => ?_⟩
      rw [List.mem_cons, hmem]
      refine ⟨?_, fun ha => ?_⟩
      · rintro (rfl | ha)
        · exact hb
        · exact hm.generate_pending s a hs ha
      · obtain ⟨b', hanswer', ha⟩ := hm.kept s a hs ha
        obtain rfl := Option.some.inj (Except.ok.inj (hanswer.symm.trans hanswer'))
        exact ha

end

/-! ## Whole passes -/

/-- A call of `init` or `reset` that succeeds and begins a pass. -/
structure Delivers (m : Machine σ α) (live : σ → Prop) (full : List α → Prop)
    (result : Except Fault Unit × σ × Streams) : Prop where
  answer : result.1 = .ok ()
  live : live result.2.1
  pass : ∃ values, full values ∧ m.HandsOut result.2.1 values

theorem Delivers.imp {live : σ → Prop} {full full' : List α → Prop}
    {result : Except Fault Unit × σ × Streams} (h : m.Delivers live full result)
    (himp : ∀ values, full values → full' values) : m.Delivers live full' result :=
  ⟨h.answer, h.live, h.pass.imp fun values hvalues => hvalues.imp_left (himp values)⟩

/-- What such a call returns, with its parts named. -/
theorem Delivers.exists_eq {live : σ → Prop} {full : List α → Prop}
    {result : Except Fault Unit × σ × Streams} (h : m.Delivers live full result) :
    ∃ s streams, result = (.ok (), s, streams) ∧ live s ∧
      ∃ values, full values ∧ m.HandsOut s values :=
  ⟨result.2.1, result.2.2, Prod.ext h.answer rfl, h.live, h.pass⟩

/-- **Every pass is full.**  A fresh generator that is initialized by the context
begins a full pass, and so does a live one that is reset. -/
structure Supplies (m : Machine σ α) (context : Context) (fresh live : σ → Prop)
    (full : List α → Prop) : Prop where
  init : ∀ s streams, fresh s → m.Delivers live full (m.init context s streams)
  generate : ∀ s, live s → live (m.generate s).2
  reset : ∀ s streams, live s → m.Delivers live full (m.reset s streams)

section

variable {context : Context} {fresh live : σ → Prop} {full full' : List α → Prop}

theorem Supplies.imp (hm : m.Supplies context fresh live full)
    (himp : ∀ values, full values → full' values) : m.Supplies context fresh live full' where
  init := fun s streams hs => (hm.init s streams hs).imp himp
  generate := hm.generate
  reset := fun s streams hs => (hm.reset s streams hs).imp himp

theorem Supplies.narrow {fresh' : σ → Prop} (hm : m.Supplies context fresh live full)
    (h : ∀ s, fresh' s → fresh s) : m.Supplies context fresh' live full where
  init := fun s streams hs => hm.init s streams (h s hs)
  generate := hm.generate
  reset := hm.reset

/-- A machine that treats states in the same way begins the same passes. -/
theorem Supplies.embed {τ : Type} {M : Machine τ α} {wrap : σ → τ}
    (hm : m.Supplies context fresh live full) (h : m.Embeds M wrap) :
    M.Supplies context (fun t => ∃ s, fresh s ∧ t = wrap s) (fun t => ∃ s, live s ∧ t = wrap s)
      full where
  init := by
    rintro _ streams ⟨s, hs, rfl⟩
    obtain ⟨hanswer, hlive, values, hfull, hvalues⟩ := hm.init s streams hs
    rw [h.init]
    exact ⟨hanswer, ⟨_, hlive, rfl⟩, values, hfull, hvalues.passed_on wrap h.generate⟩
  generate := by
    rintro _ ⟨s, hs, rfl⟩
    rw [h.generate]
    exact ⟨_, hm.generate s hs, rfl⟩
  reset := by
    rintro _ streams ⟨s, hs, rfl⟩
    obtain ⟨hanswer, hlive, values, hfull, hvalues⟩ := hm.reset s streams hs
    rw [h.reset]
    exact ⟨hanswer, ⟨_, hlive, rfl⟩, values, hfull, hvalues.passed_on wrap h.generate⟩

/-- **At any time, what has been handed out in the present pass and what is still to
come make up a full pass**, and nothing fails. -/
theorem Supplies.run (hm : m.Supplies context fresh live full) (hs : fresh s) (streams : Streams)
    (calls : List Call) (hcalls : ∀ c ∈ calls, c = .generate ∨ c = .reset) :
    let r := m.run (.init context :: calls) (.start s streams)
    live r.state ∧ ∃ rest, m.HandsOut r.state rest ∧ full (r.pass.reverse ++ rest) := by
  suffices h : ∀ r : Run σ α,
      (live r.state ∧ ∃ rest, m.HandsOut r.state rest ∧ full (r.pass.reverse ++ rest)) →
      let r' := m.run calls r
      live r'.state ∧ ∃ rest, m.HandsOut r'.state rest ∧ full (r'.pass.reverse ++ rest) by
    obtain ⟨-, hlive, values, hfull, hvalues⟩ := hm.init s streams hs
    exact h (m.call (.start s streams) (.init context)) ⟨hlive, values, hvalues, hfull⟩
  induction calls with
  | nil => exact fun r hr => hr
  | cons c calls ih =>
    rintro r ⟨hlive, rest, hrest, hfull⟩
    refine ih (fun c hc => hcalls c (List.mem_cons_of_mem _ hc)) (m.call r c) ?_
    rcases hcalls c List.mem_cons_self with rfl | rfl
    · have hleft := hm.generate r.state hlive
      cases rest with
      | nil =>
        obtain ⟨s', hgenerate, hnext⟩ := hrest.ended
        rw [hgenerate] at hleft
        simp only [call, hgenerate]
        exact ⟨hleft, [], hnext, hfull⟩
      | cons v rest =>
        obtain ⟨s', hgenerate, hnext⟩ := hrest.head
        rw [hgenerate] at hleft
        simp only [call, hgenerate]
        exact ⟨hleft, rest, hnext, by simpa using hfull⟩
    · obtain ⟨-, hlive, values, hfull, hvalues⟩ := hm.reset r.state r.streams hlive
      exact ⟨hlive, values, hvalues, hfull⟩

/-! ## Whole lives -/

/-- Calls that come at the wrong time change nothing, and a new generator that is reset is
initialized with a context of its own. -/
structure Orderly (m : Machine σ α) : Prop where
  init : ∀ context s streams, m.phase s ≠ .created → (m.init context s streams).2.1 = s
  generate : ∀ s, m.phase s ≠ .running → (m.generate s).2 = s
  reset_created : ∀ s streams, m.phase s = .created →
    m.reset s streams = m.init streams.defaultContext.1 s streams.defaultContext.2
  reset_closed : ∀ s streams, m.phase s = .closed → (m.reset s streams).2.1 = s
  close : ∀ s, m.phase (m.close s) = .closed

variable {new : σ}

/-- Where a generator is in its life: new, in the course of a pass, or closed. -/
def Stage (m : Machine σ α) (new : σ) (live : σ → Prop) (s : σ) : Prop :=
  (s = new ∧ m.phase s = .created) ∨ (live s ∧ m.phase s = .running) ∨ m.phase s = .closed

section

variable (hm : ∀ context, m.Supplies context (· = new) live full) (ho : m.Orderly)
  (hlive : ∀ s, live s → m.phase s = .running)

include hm

theorem Stage.init (hs : m.Stage new live s) (hcreated : m.phase s = .created) (context : Context)
    (streams : Streams) : m.Delivers live full (m.init context s streams) := by
  obtain ⟨rfl, -⟩ | ⟨-, hrunning⟩ | hclosed := hs
  · exact (hm context).init _ streams rfl
  · rw [hrunning] at hcreated
    cases hcreated
  · rw [hclosed] at hcreated
    cases hcreated

include ho

theorem Stage.reset (hs : m.Stage new live s) (hopen : m.phase s ≠ .closed) (streams : Streams) :
    m.Delivers live full (m.reset s streams) := by
  obtain ⟨rfl, hcreated⟩ | ⟨hs, -⟩ | hclosed := hs
  · rw [ho.reset_created _ streams hcreated]
    exact (hm _).init _ _ rfl
  · exact (hm ⟨{}, 0⟩).reset s streams hs
  · exact absurd hclosed hopen

include hlive

/-- **No call leaves these stages.** -/
theorem stage_keeps : m.Keeps (m.Stage new live) where
  init := by
    intro context s streams hs
    by_cases hcreated : m.phase s = .created
    · have hlive' := (hs.init hm hcreated context streams).live
      exact Or.inr (Or.inl ⟨hlive', hlive _ hlive'⟩)
    · rwa [ho.init context s streams hcreated]
  generate := by
    intro s hs
    by_cases hrunning : m.phase s = .running
    · obtain ⟨-, hcreated⟩ | ⟨hs, -⟩ | hclosed := hs
      · rw [hcreated] at hrunning
        cases hrunning
      · have hnext := (hm ⟨{}, 0⟩).generate s hs
        exact Or.inr (Or.inl ⟨hnext, hlive _ hnext⟩)
      · rw [hclosed] at hrunning
        cases hrunning
    · rwa [ho.generate s hrunning]
  reset := by
    intro s streams hs
    by_cases hclosed : m.phase s = .closed
    · rwa [ho.reset_closed s streams hclosed]
    · have hlive' := (hs.reset hm ho hclosed streams).live
      exact Or.inr (Or.inl ⟨hlive', hlive _ hlive'⟩)
  close := fun s _ => Or.inr (Or.inr (ho.close s))

/-- **After any history of calls**, `init` of a generator that is still new begins a full pass, and
so does `reset` of one that is not closed. -/
theorem Supplies.always (hnew : m.phase new = .created) (streams : Streams) (calls : List Call) :
    let r := m.run calls (.start new streams)
    (m.phase r.state = .created → ∀ context,
        m.Delivers live full (m.init context r.state r.streams)) ∧
      (m.phase r.state ≠ .closed → m.Delivers live full (m.reset r.state r.streams)) := by
  intro r
  have hstage : m.Stage new live r.state :=
    (stage_keeps hm ho hlive).run (r := .start new streams) (Or.inl ⟨rfl, hnew⟩) calls
  exact ⟨fun hcreated context => hstage.init hm hcreated context r.streams,
    fun hopen => hstage.reset hm ho hopen r.streams⟩

end

end

end SynthData.Machine
