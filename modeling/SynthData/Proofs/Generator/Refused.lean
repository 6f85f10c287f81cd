import SynthData.Proofs.Generator.Lifecycle
import SynthData.Proofs.Generator.Occurrences

/-!
# A refused initialization

A generator that has been initialized cannot be initialized again, and a call that is refused
should go unnoticed: all that is called afterwards should get the replies that it would have got
without it (`Machine.Ignores`).

A unique generator takes the limit from the context before it asks for its phase.  So a refused
call leaves another limit behind, unless the limit was given explicitly, and nothing else.  Only a
call of `generate` can tell two limits apart, and only by as many repeated values in a row as the
lesser one allows (`Unique.TellsApart`).
-/
namespace SynthData

/-! ## Replies -/

namespace Machine

variable {σ α : Type} (m : Machine σ α)

/-- What a call replies; a call of `close` has nothing to say. -/
inductive Reply (α : Type) where
  | done (answer : Except Fault Unit)
  | value (answer : Except Fault (Option α))
  | closed

/-- What a call of a run replies. -/
def reply (r : Run σ α) : Call → Reply α
  | .init context => .done (m.init context r.state r.streams).1
  | .generate => .value (m.generate r.state).1
  | .reset => .done (m.reset r.state r.streams).1
  | .close => .closed

/-- The replies that a sequence of calls gets. -/
def replies : List Call → Run σ α → List (Reply α)
  | [], _ => []
  | c :: calls, r => m.reply r c :: replies calls (m.call r c)

/-- No call of `init`. -/
def Later (calls : List Call) : Prop := ∀ c ∈ calls, ∀ context, c ≠ .init context

/-- **A call of `init` that cannot be noticed**: all later calls get the replies that they would
have got without it. -/
def Ignores (context : Context) (r : Run σ α) : Prop :=
  ∀ later, Later later → m.replies later (m.call r (.init context)) = m.replies later r

end Machine

/-! ## One value for ever -/

namespace Constant

variable {α : Type} {v : α}

/-- A source that hands out the same value for ever. -/
def Forever (v : α) (source : Leaf (Constant α)) : Prop :=
  ∃ emitted, source = ⟨⟨v, false, emitted⟩, .running⟩

theorem Forever.after {source : Leaf (Constant α)} (h : Forever v source) (n : Nat) :
    Forever v (machine.after n source) := by
  induction n with
  | zero => exact h
  | succ n ih =>
    obtain ⟨emitted, hsource⟩ := ih
    rw [Machine.after, hsource]
    exact ⟨true, rfl⟩

theorem Forever.answer {source : Leaf (Constant α)} (h : Forever v source) (n : Nat) :
    machine.answer n source = .ok (some v) := by
  obtain ⟨emitted, hsource⟩ := h.after n
  rw [Machine.answer, hsource]
  rfl

end Constant

namespace Unique

open Machine (Later)

variable {σ α : Type} [BEq α] [Hashable α] {m : Machine σ α}

/-! ## Another limit -/

/-- The generator with another limit. -/
def limited (u : Unique σ α) (limit : Nat) : Unique σ α := { u with limit := limit }

/-- The next values of the source are enough repeated ones to tell two limits apart. -/
def TellsApart (m : Machine σ α) (limit limit' : Nat) (u : Unique σ α) : Prop :=
  max 1 limit ≠ max 1 limit' ∧ u.wrapped.phase = .running ∧
    ∀ i < min (max 1 limit) (max 1 limit'),
      ∃ v ∈ u.seen, m.answer i u.wrapped.source = .ok (some v)

theorem seek_of_stopped {limit chances : Nat} {seen : Std.HashSet α} {w : Wrapped σ}
    {fault : Fault} (h : w.phase.requireRunning owner = .error fault) :
    seek m limit chances seen w = (.error fault, seen, w) := by
  unfold seek
  simp [Wrapped.generate, h]

/-- A search that finds something other than a repeated value finds it whatever its limit is. -/
theorem seek_congr {limit limit' chances chances' : Nat} {seen : Std.HashSet α} {s : σ}
    (hle : chances ≤ chances')
    (hfresh : ∃ i ≤ chances, ∀ v ∈ seen, m.answer i s ≠ .ok (some v)) :
    seek m limit chances seen ⟨s, .running⟩ = seek m limit' chances' seen ⟨s, .running⟩ := by
  obtain ⟨i, hi, hfresh⟩ := hfresh
  -- the search ends with the answer `i` at the latest
  induction chances generalizing s i chances' with
  | zero =>
    obtain rfl : i = 0 := Nat.le_zero.mp hi
    unfold seek
    rcases hgenerate : m.generate s with ⟨fault | _ | v, s'⟩
    all_goals simp only [Wrapped.generate, Phase.requireRunning, hgenerate]
    have hnew : ¬ seen.contains v := fun hv => hfresh v hv (congrArg Prod.fst hgenerate)
    simp only [if_neg hnew]
  | succ chances ih =>
    obtain ⟨chances', rfl⟩ : ∃ n, chances' = n + 1 := ⟨chances' - 1, by omega⟩
    unfold seek
    rcases hgenerate : m.generate s with ⟨fault | _ | v, s'⟩
    all_goals simp only [Wrapped.generate, Phase.requireRunning, hgenerate]
    by_cases hold : seen.contains v
    · simp only [if_pos hold]
      cases i with
      | zero => exact absurd (congrArg Prod.fst hgenerate) (hfresh v hold)
      | succ i =>
        refine ih (Nat.le_of_succ_le_succ hle) i (Nat.le_of_succ_le_succ hi) fun v' hv' => ?_
        have := hfresh v' hv'
        rwa [m.answer_succ, hgenerate] at this
    · simp only [if_neg hold]

theorem seek_of_max_eq {limit limit' : Nat} (h : max 1 limit = max 1 limit') (chances : Nat)
    (seen : Std.HashSet α) (w : Wrapped σ) :
    seek m limit chances seen w = seek m limit' chances seen w := by
  induction chances generalizing w with
  | zero => unfold seek; rw [h]
  | succ chances ih => unfold seek; simp only [ih]

variable {explicit : Bool} {u : Unique σ α} {limit' : Nat}

theorem seek_limited (h : ¬ TellsApart m u.limit limit' u) :
    seek m u.limit (u.limit - 1) u.seen u.wrapped =
      seek m limit' (limit' - 1) u.seen u.wrapped := by
  by_cases hsame : max 1 u.limit = max 1 limit'
  · rw [seek_of_max_eq hsame, show u.limit - 1 = limit' - 1 by omega]
  obtain ⟨⟨s, phase⟩, seen, limit⟩ := u
  cases phase with
  | created | closed => rw [seek_of_stopped rfl, seek_of_stopped rfl]
  | running =>
    obtain ⟨i, hi, hfresh⟩ : ∃ i < min (max 1 limit) (max 1 limit'),
        ∀ v ∈ seen, m.answer i s ≠ .ok (some v) := by
      by_contra hnone
      push Not at hnone
      exact h ⟨hsame, rfl, hnone⟩
    rcases Nat.le_total limit limit' with hle | hle
    · exact seek_congr (by simp only; omega) ⟨i, by simp only; omega, hfresh⟩
    · exact (seek_congr (by simp only; omega) ⟨i, by omega, hfresh⟩).symm

/-- A run of the same generator with another limit. -/
structure Limited (limit' : Nat) (r r' : Run (Unique σ α) α) : Prop where
  state : r'.state = r.state.limited limit'
  streams : r'.streams = r.streams

/-- **A call that does not tell the limits apart** replies the same, and leaves the same behind but
for the limit. -/
theorem Limited.call (m : Machine σ α) (explicit : Bool) {r r' : Run (Unique σ α) α}
    (h : Limited limit' r r') {c : Machine.Call} (hc : ∀ context, c ≠ .init context)
    (hsame : c = .generate → ¬ TellsApart m r.state.limit limit' r.state) :
    (machine m explicit).reply r' c = (machine m explicit).reply r c ∧
      Limited limit' ((machine m explicit).call r c) ((machine m explicit).call r' c) := by
  obtain ⟨_, _, pass'⟩ := r'
  obtain ⟨hstate, hstreams⟩ := h
  obtain rfl : _ = r.state.limited limit' := hstate
  obtain rfl : _ = r.streams := hstreams
  cases c with
  | init context => exact absurd rfl (hc context)
  | generate =>
    have hgenerate : (machine m explicit).generate (r.state.limited limit') =
        (((machine m explicit).generate r.state).1,
          ((machine m explicit).generate r.state).2.limited limit') := by
      rw [generate_eq, generate_eq]
      exact congrArg
        (fun result => (result.1, (⟨result.2.2, result.2.1, limit'⟩ : Unique σ α)))
        (seek_limited (hsame rfl)).symm
    refine ⟨by simp only [Machine.reply, hgenerate], ?_, ?_⟩
    · rw [(Machine.call_generate _).1, (Machine.call_generate _).1, hgenerate]
    · simp only [Machine.call]
      split <;> split <;> rfl
  | reset =>
    simp only [Machine.reply, Machine.call, machine, limited]
    split
    all_goals exact ⟨rfl, rfl, rfl⟩
  | close => exact ⟨rfl, rfl, rfl⟩

/-- **Replies are the same as long as no call tells the limits apart.** -/
theorem Limited.replies {limit : Nat} {r r' : Run (Unique σ α) α} (h : Limited limit' r r')
    (hlimit : r.state.limit = limit) {later : List Machine.Call} (hlater : Later later)
    (hsame : ∀ before after, later = before ++ .generate :: after →
      ¬ TellsApart m limit limit' ((machine m explicit).run before r).state) :
    (machine m explicit).replies later r' = (machine m explicit).replies later r := by
  induction later generalizing r r' with
  | nil => rfl
  | cons c later ih =>
    have hc := hlater c List.mem_cons_self
    obtain ⟨hreply, hnext⟩ := h.call m explicit hc (by
      rintro rfl
      rw [hlimit]
      exact hsame [] later rfl)
    have hstays : ((machine m explicit).call r c).state.limit = limit := by
      rw [limit_call]
      cases c with
      | init context => exact absurd rfl (hc context)
      | generate | reset | close => exact hlimit
    have hrest := ih hnext hstays (fun c hmem => hlater c (List.mem_cons_of_mem _ hmem))
      fun before after heq => hsame (c :: before) after (by rw [heq]; rfl)
    simp only [Machine.replies, hreply, hrest]

/-! ## Refusal -/

/-- The limit that a call of `init` leaves behind. -/
theorem init_of_refused (m : Machine σ α) (explicit : Bool) (hphase : u.wrapped.phase ≠ .created)
    (context : Context) (streams : Streams) :
    ∃ fault, fault.kind = .illegalState ∧ (machine m explicit).init context u streams =
      (.error fault, u.limited (if explicit then u.limit else settingsLimit context.settings),
        streams) := by
  obtain ⟨fault, hfault, hkind⟩ := u.wrapped.phase.requireCreated_error owner hphase
  exact ⟨fault, hkind, by simp [machine, Wrapped.init, hfault, limited]⟩

/-! ## The limits of a run -/

theorem limitAfter_concat (thresholds : Option (Nat × Nat)) (calls : List Machine.Call)
    (context : Context) :
    limitAfter thresholds (calls ++ [.init context]) =
      if (thresholds.map fun t => limitOf t.1 t.2).isSome then limitAfter thresholds calls
      else settingsLimit context.settings := by
  cases thresholds with
  | some t => rfl
  | none =>
    rw [limitAfter, settingsAfter, List.foldl_concat]
    exact Nat.max_comm _ _

/-! ## A source that repeats its value -/

section

variable {v : α} {r : Run (Unique (Leaf (Constant α)) α) α} {calls : List Machine.Call}

/-- A generator over a source that hands out a value for ever, both in the same phase. -/
def Repeats (v : α) (phase : Phase) (u : Unique (Leaf (Constant α)) α) : Prop :=
  ∃ emitted, u.wrapped = ⟨⟨⟨v, false, emitted⟩, phase⟩, phase⟩

theorem Repeats.generate {u : Unique (Leaf (Constant α)) α} (h : Repeats v .running u) :
    Repeats v .running ((machine Constant.machine explicit).generate u).2 := by
  obtain ⟨wrapped, seen, limit⟩ := u
  obtain ⟨emitted, rfl⟩ := h
  have hsource := (seek_search Constant.machine limit (limit - 1) seen
    ⟨⟨v, false, emitted⟩, .running⟩).source
  obtain ⟨emitted', hafter⟩ := Constant.Forever.after (v := v) ⟨emitted, rfl⟩ _
  rw [hafter] at hsource
  exact ⟨emitted', hsource⟩

/-- It runs until it is closed. -/
theorem repeats_run (hr : Repeats v .running r.state) (hcalls : .close ∉ calls) :
    Repeats v .running ((machine Constant.machine explicit).run calls r).state := by
  induction calls generalizing r with
  | nil => exact hr
  | cons c calls ih =>
    obtain ⟨hc, hrest⟩ := List.ne_and_not_mem_of_not_mem_cons hcalls
    refine ih ?_ hrest
    cases c with
    | close => exact absurd rfl hc
    | generate =>
      rw [(Machine.call_generate r).1]
      exact hr.generate
    | init context | reset =>
      obtain ⟨⟨wrapped, seen, limit⟩, streams, pass⟩ := r
      obtain ⟨emitted, rfl⟩ := hr
      exact ⟨_, rfl⟩

/-- It runs as soon as it has been initialized or reset. -/
theorem repeats_opens (hr : Repeats v .created r.state) (hcalls : .close ∉ calls)
    (hopens : ∃ c ∈ calls, c ≠ .generate) :
    Repeats v .running ((machine Constant.machine explicit).run calls r).state := by
  induction calls generalizing r with
  | nil => simp at hopens
  | cons c calls ih =>
    obtain ⟨hc, hrest⟩ := List.ne_and_not_mem_of_not_mem_cons hcalls
    obtain ⟨⟨wrapped, seen, limit⟩, streams, pass⟩ := r
    obtain ⟨emitted, rfl⟩ := hr
    cases c with
    | close => exact absurd rfl hc
    | generate =>
      refine ih ?_ hrest ?_
      · rw [(Machine.call_generate _).1, generate_eq, seek_of_stopped rfl]
        exact ⟨emitted, rfl⟩
      · simpa using hopens
    | init context | reset => exact repeats_run (r := Machine.call _ _ _) ⟨_, rfl⟩ hrest

/-- The first value is passed on. -/
theorem repeats_generate_new (emitted : Bool) (limit : Nat) :
    (machine Constant.machine explicit).generate
        ⟨⟨⟨⟨v, false, emitted⟩, .running⟩, .running⟩, ∅, limit⟩ =
      (.ok (some v), ⟨⟨⟨⟨v, false, true⟩, .running⟩, .running⟩,
        (∅ : Std.HashSet α).insert v, limit⟩) := by
  have hsource : Wrapped.generate owner Constant.machine
      ⟨⟨⟨v, false, emitted⟩, .running⟩, .running⟩ =
      (.ok (some v), ⟨⟨⟨v, false, true⟩, .running⟩, .running⟩) := rfl
  rw [generate_eq]
  unfold seek
  simp [hsource]

/-- All others are the same. -/
theorem repeats_generate_old (explicit : Bool) {seen : Std.HashSet α} (hv : v ∈ seen)
    (emitted : Bool) (limit : Nat) :
    ((machine Constant.machine explicit).generate
        ⟨⟨⟨⟨v, false, emitted⟩, .running⟩, .running⟩, seen, limit⟩).1 =
      .error (.repeatedValues (max 1 limit) seen.size) := by
  have hends := (seek_search Constant.machine limit (limit - 1) seen
    ⟨⟨v, false, emitted⟩, .running⟩).ends
  rw [Constant.Forever.answer (v := v) ⟨emitted, rfl⟩] at hends
  rw [generate_eq]
  dsimp only
  generalize seek Constant.machine limit (limit - 1) seen
    ⟨⟨⟨v, false, emitted⟩, .running⟩, .running⟩ = result at hends ⊢
  generalize result.1 = answer, result.2.1 = seen' at hends ⊢
  cases hends with
  | fresh _ new => exact absurd hv new
  | repeated _ _ => rfl

/-- **The second call of `generate` after a reset fails**, and tells the limit. -/
theorem repeats_replies [LawfulBEq α] (hr : Repeats v .running r.state) :
    (machine Constant.machine explicit).replies [.reset, .generate, .generate] r =
      [.done (.ok ()), .value (.ok (some v)),
        .value (.error (.repeatedValues (max 1 r.state.limit) 1))] := by
  obtain ⟨⟨wrapped, seen, limit⟩, streams, pass⟩ := r
  obtain ⟨emitted, rfl⟩ := hr
  have hreset : (machine Constant.machine explicit).reset
      ⟨⟨⟨⟨v, false, emitted⟩, .running⟩, .running⟩, seen, limit⟩ streams =
      (.ok (), ⟨⟨⟨⟨v, false, false⟩, .running⟩, .running⟩, ∅, limit⟩, streams) := rfl
  have hold := repeats_generate_old explicit
    (show v ∈ (∅ : Std.HashSet α).insert v from Std.HashSet.mem_insert_self) true limit
  have hsize : ((∅ : Std.HashSet α).insert v).size = 1 := by simp [Std.HashSet.size_insert]
  simp [Machine.replies, Machine.reply, Machine.call, hreset, repeats_generate_new, hold, hsize]

end

/-! ## What a refused initialization does -/

/-- A generator that has been closed stays closed. -/
theorem closed_run {calls : List Machine.Call} {r : Run (Unique σ α) α}
    (h : r.state.wrapped.phase = .closed ∨ .close ∈ calls) :
    ((machine m explicit).run calls r).state.wrapped.phase = .closed := by
  induction calls generalizing r with
  | nil => exact h.resolve_right (by simp)
  | cons c calls ih =>
    refine ih (r := (machine m explicit).call r c) ?_
    rcases h with hclosed | hmem
    · have hreaches := (Kind.distinct m explicit).call_reaches r c
      rw [show (Kind.distinct m explicit).machine.phase r.state = .closed from hclosed] at hreaches
      exact Or.inl hreaches
    · rcases List.mem_cons.mp hmem with rfl | hrest
      · exact Or.inl rfl
      · exact Or.inr hrest

/-- A new generator that is only asked for values stays new. -/
theorem created_run {calls : List Machine.Call} {r : Run (Unique σ α) α}
    (hr : r.state.wrapped.phase = .created) (hcalls : ∀ c ∈ calls, c = .generate) :
    ((machine m explicit).run calls r).state.wrapped.phase = .created := by
  induction calls generalizing r with
  | nil => exact hr
  | cons c calls ih =>
    obtain rfl := hcalls c List.mem_cons_self
    refine ih (r := (machine m explicit).call r .generate) ?_ fun c hc =>
      hcalls c (List.mem_cons_of_mem _ hc)
    rw [(Machine.call_generate r).1]
    exact ((Kind.distinct m explicit).phase_generate r.state).trans hr

section

variable (thresholds : Option (Nat × Nat)) (calls : List Machine.Call) (context : Context)

/-- A call that is refused leaves the same behind but for the limit. -/
theorem limited_of_refused (m : Machine σ α) (source : σ) (streams : Streams) :
    let limit := thresholds.map fun t => limitOf t.1 t.2
    let unique := machine m limit.isSome
    let r := unique.run calls (.start (new source limit) streams)
    r.state.wrapped.phase ≠ .created →
      (∃ fault, fault.kind = .illegalState ∧ unique.init context r.state r.streams =
        (.error fault, r.state.limited (limitAfter thresholds (calls ++ [.init context])),
          r.streams)) ∧
      Limited (limitAfter thresholds (calls ++ [.init context])) r
        (unique.call r (.init context)) := by
  intro limit unique r hphase
  have hlimit : r.state.limit = limitAfter thresholds calls :=
    limit_run m thresholds source streams calls
  obtain ⟨fault, hkind, hinit⟩ := init_of_refused m limit.isSome hphase context r.streams
  rw [hlimit, ← limitAfter_concat] at hinit
  refine ⟨⟨fault, hkind, hinit⟩, ?_⟩
  simp only [Machine.call, unique, hinit]
  exact ⟨rfl, rfl⟩

theorem replies_of_refused (m : Machine σ α) (source : σ) (streams : Streams) :
    let limit := thresholds.map fun t => limitOf t.1 t.2
    let unique := machine m limit.isSome
    let r := unique.run calls (.start (new source limit) streams)
    r.state.wrapped.phase ≠ .created → ∀ later, Later later →
      (∀ earlier rest, later = earlier ++ .generate :: rest →
        ¬ TellsApart m (limitAfter thresholds calls)
          (limitAfter thresholds (calls ++ [.init context])) (unique.run earlier r).state) →
      unique.replies later (unique.call r (.init context)) = unique.replies later r := by
  intro limit unique r hphase later hlater hsame
  have hlimited := (limited_of_refused thresholds calls context m source streams hphase).2
  exact hlimited.replies (limit_run m thresholds source streams calls) hlater hsame

/-- Over a source with a single value, the replies tell which limit is in force. -/
theorem refused_noticed [LawfulBEq α] (v : α) (hopen : .close ∉ calls)
    (hopens : ∃ c ∈ calls, c ≠ .generate)
    (hdiffer : max 1 (limitAfter thresholds calls) ≠
      max 1 (limitAfter thresholds (calls ++ [.init context]))) (streams : Streams) :
    let limit := thresholds.map fun t => limitOf t.1 t.2
    let unique := machine Constant.machine limit.isSome
    let r := unique.run calls (.start (new (Constant.always v) limit) streams)
    r.state.wrapped.phase ≠ .created ∧ ¬ unique.Ignores context r := by
  intro limit unique r
  have hrepeats : Repeats v .running r.state :=
    repeats_opens (r := .start (new (Constant.always v) limit) streams) ⟨false, rfl⟩ hopen hopens
  have hphase : r.state.wrapped.phase ≠ .created := by
    obtain ⟨emitted, hwrapped⟩ := hrepeats
    rw [hwrapped]
    nofun
  refine ⟨hphase, fun hignores => hdiffer ?_⟩
  have hlimit : r.state.limit = limitAfter thresholds calls :=
    limit_run Constant.machine thresholds (Constant.always v) streams calls
  have hlimited : Limited (limitAfter thresholds (calls ++ [.init context])) r
      (unique.call r (.init context)) :=
    (limited_of_refused thresholds calls context Constant.machine (Constant.always v) streams
      hphase).2
  have hrepeats' : Repeats v .running (unique.call r (.init context)).state := by
    rw [hlimited.state]
    exact hrepeats
  have hsame := hignores [.reset, .generate, .generate] (by simp [Later])
  rw [repeats_replies hrepeats, repeats_replies hrepeats', hlimited.state, hlimit] at hsame
  simpa [limited] using hsame.symm

end

/-- **What becomes of a call of `init` that is refused**, after any calls and over any source.  It
is refused because of the phase, and nothing but the limit changes.  No reply to a later call tells,
unless a call of `generate` meets as many repeated values in a row as the lesser limit allows.

So the call cannot be noticed over any source if the generator is closed, and otherwise if and only
if both limits allow for the same number of repeated values. -/
theorem refused_init_ignored_iff [LawfulBEq α] [Nonempty α] (thresholds : Option (Nat × Nat))
    (calls : List Machine.Call) (context : Context) :
    let limit := thresholds.map fun t => limitOf t.1 t.2
    let before := limitAfter thresholds calls
    let after := limitAfter thresholds (calls ++ [.init context])
    (∀ (σ : Type) (m : Machine σ α) (source : σ) (streams : Streams),
      let unique := machine m limit.isSome
      let r := unique.run calls (.start (new source limit) streams)
      r.state.wrapped.phase ≠ .created →
        (∃ fault, fault.kind = .illegalState ∧
          unique.init context r.state r.streams =
            (.error fault, r.state.limited after, r.streams)) ∧
        ∀ later, Later later →
          (∀ earlier rest, later = earlier ++ .generate :: rest →
            ¬ TellsApart m before after (unique.run earlier r).state) →
          unique.replies later (unique.call r (.init context)) = unique.replies later r) ∧
    ((∀ (σ : Type) (m : Machine σ α) (source : σ) (streams : Streams),
      let unique := machine m limit.isSome
      let r := unique.run calls (.start (new source limit) streams)
      r.state.wrapped.phase ≠ .created → unique.Ignores context r) ↔
      .close ∈ calls ∨ (∀ c ∈ calls, c = .generate) ∨ max 1 before = max 1 after) := by
  intro limit before after
  refine ⟨?refused, ?noticed, ?ignored⟩
  case refused =>
    intro σ m source streams unique r hphase
    exact ⟨(limited_of_refused thresholds calls context m source streams hphase).1,
      replies_of_refused thresholds calls context m source streams hphase⟩
  case noticed =>
    intro hignores
    by_contra hnot
    push Not at hnot
    obtain ⟨hopen, hopens, hdiffer⟩ := hnot
    obtain ⟨v⟩ := ‹Nonempty α›
    obtain ⟨hphase, hnoticed⟩ := refused_noticed thresholds calls context v hopen hopens hdiffer
      (.start fun _ => .ofSeed 0)
    exact hnoticed (hignores _ _ _ _ hphase)
  case ignored =>
    intro hcases σ m source streams unique r hphase later hlater
    refine replies_of_refused thresholds calls context m source streams hphase later hlater ?_
    rintro earlier rest - ⟨hdiffer, hrunning, -⟩
    rcases hcases with hclose | hgenerate | hsame
    · have hclosed : r.state.wrapped.phase = .closed := closed_run (Or.inr hclose)
      rw [closed_run (Or.inl hclosed)] at hrunning
      cases hrunning
    · exact hphase (created_run rfl hgenerate)
    · exact hdiffer hsame

/-- Two numbers are handed out as if nothing had happened. -/
theorem refused_init_ignored_iff_twoNumbers :
    let context : Context := ⟨{ uniqueWarnThreshold := 1, uniqueErrorThreshold := 2 }, 0⟩
    let unique := machine Listed.machine false
    let r := unique.run [.reset]
      (.start (new (Listed.new #[4, 7]) none) (.start fun _ => .ofSeed 0))
    r.state.wrapped.phase ≠ .created ∧
      unique.replies [.generate] (unique.call r (.init context)) =
        unique.replies [.generate] r := by
  intro context unique r
  refine ⟨nofun, ((refused_init_ignored_iff none [.reset] context).1 _ Listed.machine
    (Listed.new #[4, 7]) (.start fun _ => .ofSeed 0) nofun).2 [.generate] (by simp [Later]) ?_⟩
  -- nothing has been passed on yet, so that no value is a repeated one
  rintro earlier rest hsplit ⟨-, -, hall⟩
  obtain rfl : earlier = [] := by
    cases earlier with
    | nil => rfl
    | cons c earlier => simp at hsplit
  obtain ⟨v, hv, -⟩ := hall 0 (by decide)
  exact Std.HashSet.not_mem_empty (show v ∈ (∅ : Std.HashSet Nat) from hv)

/-- **A refused initialization can be noticed.**  A single value is repeated 10000 times before the
generator gives up, but only twice after a call of `init` that is refused. -/
theorem refused_init_noticed :
    let context : Context := ⟨{ uniqueWarnThreshold := 1, uniqueErrorThreshold := 2 }, 0⟩
    let unique := machine Constant.machine false
    let r := unique.run [.reset] (.start (new (Constant.always 1) none) (.start fun _ => .ofSeed 0))
    unique.reply r (.init context) = .done (.error (.notCreated owner .running)) ∧
      unique.replies [.reset, .generate, .generate] r =
        [.done (.ok ()), .value (.ok (some 1)), .value (.error (.repeatedValues 10000 1))] ∧
      unique.replies [.reset, .generate, .generate] (unique.call r (.init context)) =
        [.done (.ok ()), .value (.ok (some 1)), .value (.error (.repeatedValues 2 1))] := by
  intro context unique r
  exact ⟨rfl, repeats_replies ⟨false, rfl⟩, repeats_replies ⟨false, rfl⟩⟩

end Unique
end SynthData
