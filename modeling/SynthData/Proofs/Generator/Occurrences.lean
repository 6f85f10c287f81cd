import SynthData.Generator.Machine
import SynthData.Proofs.Generator.Pass
import SynthData.Proofs.Generator.Unique

/-!
# First occurrences

What a unique generator passes on in a pass are the first occurrences of its
source's values, in their order.  A call reads the source until there is a new
value; it fails if as many values in a row are repeated as the limit allows for,
and ends if the source ends.

`Sifted` says where a generator is in a pass, and `Searches` how a call of
`generate` goes on from there.  Between such calls there may be calls of `init`,
which are refused but may change the limit (`Sifts`).
-/
namespace SynthData

namespace Machine

variable {σ α : Type} (m : Machine σ α)

/-- The values that the calls of a run hand out, in their order. -/
def handed : List Call → Run σ α → List α
  | [], _ => []
  | .generate :: calls, r =>
    (valueOf (m.generate r.state).1).toList ++ handed calls (m.call r .generate)
  | c :: calls, r => handed calls (m.call r c)

end Machine

/-! ## First occurrences in a list -/

section

variable {α : Type} [BEq α] [LawfulBEq α] {xs : List α}

theorem eraseDups_append_of_old {ys : List α} (h : ∀ v ∈ ys, v ∈ xs) :
    (xs ++ ys).eraseDups = xs.eraseDups := by
  have hnone : ys.removeAll xs = [] := by simpa [List.removeAll] using h
  rw [List.eraseDups_append, hnone, List.eraseDups_nil, List.append_nil]

theorem eraseDups_concat_of_new {v : α} (h : v ∉ xs) :
    (xs ++ [v]).eraseDups = xs.eraseDups ++ [v] := by
  have hone : [v].removeAll xs = [v] := by simpa [List.removeAll] using h
  rw [List.eraseDups_append, hone]
  rfl

end

namespace Unique

open Machine (Call valueOf)

variable {σ α : Type} [BEq α] [Hashable α]

/-! ## One search -/

/-- The number of repeated values that a search goes past. -/
def passes (m : Machine σ α) (seen : Std.HashSet α) : (chances : Nat) → σ → Nat
  | chances, s =>
    match m.generate s with
    | (.ok (some v), s) =>
      if seen.contains v then
        match chances with
        | 0 => 0
        | chances + 1 => passes m seen chances s + 1
      else 0
    | _ => 0

/-- How a search ends by the last value that it reads. -/
inductive Ends (limit : Nat) (seen : Std.HashSet α) :
    Except Fault (Option α) → Except Fault (Option α) → Std.HashSet α → Prop
  | failed (fault : Fault) : Ends limit seen (.error fault) (.error fault) seen
  | ended : Ends limit seen (.ok none) (.ok none) seen
  | fresh (v : α) (new : v ∉ seen) : Ends limit seen (.ok (some v)) (.ok (some v)) (seen.insert v)
  | repeated (v : α) (old : v ∈ seen) :
    Ends limit seen (.ok (some v)) (.error (.repeatedValues (max 1 limit) seen.size)) seen

/-- Only a new value is remembered. -/
theorem Ends.cases {limit : Nat} {seen seen' : Std.HashSet α}
    {last answer : Except Fault (Option α)} (h : Ends limit seen last answer seen') :
    (seen' = seen ∧ valueOf answer = none ∧ ∀ v, valueOf last = some v → v ∈ seen) ∨
      ∃ v, v ∉ seen ∧ seen' = seen.insert v ∧ valueOf answer = some v ∧ valueOf last = some v := by
  cases h with
  | failed _ | ended => exact Or.inl ⟨rfl, rfl, nofun⟩
  | fresh v new => exact Or.inr ⟨v, new, rfl, rfl, rfl⟩
  | repeated v old =>
    refine Or.inl ⟨rfl, rfl, ?_⟩
    rintro v' ⟨⟩
    exact old

/-- **A search goes past repeated values and ends with the next one.**  It ends with a repeated
value only if it has gone past as many as it may. -/
structure Search (m : Machine σ α) (limit chances : Nat) (seen : Std.HashSet α) (s : σ)
    (past : Nat) (result : Except Fault (Option α) × Std.HashSet α × Wrapped σ) : Prop where
  source : result.2.2 = ⟨m.after (past + 1) s, .running⟩
  past_le : past ≤ chances
  past_old : ∀ i, i < past → ∃ v ∈ seen, m.answer i s = .ok (some v)
  ends : Ends limit seen (m.answer past s) result.1 result.2.1
  given_up : ∀ v ∈ seen, m.answer past s = .ok (some v) → past = chances

variable {m : Machine σ α} {limit chances : Nat} {seen : Std.HashSet α}

/-- A search of one value. -/
theorem search_first {s s' : σ} {last answer : Except Fault (Option α)} {seen' : Std.HashSet α}
    (hgenerate : m.generate s = (last, s')) (hends : Ends limit seen last answer seen')
    (hgiven : ∀ v ∈ seen, last = .ok (some v) → chances = 0) :
    Search m limit chances seen s 0 (answer, seen', ⟨s', .running⟩) := by
  have hlast : m.answer 0 s = last := congrArg Prod.fst hgenerate
  exact
    { source := congrArg (Wrapped.mk · .running) (congrArg Prod.snd hgenerate).symm
      past_le := Nat.zero_le _
      past_old := nofun
      ends := by rwa [hlast]
      given_up := fun v hv h => (hgiven v hv (by rwa [← hlast])).symm }

/-- A search that goes past a value. -/
theorem Search.past_cons {s s' : σ} {v : α} (hgenerate : m.generate s = (.ok (some v), s'))
    (hold : v ∈ seen) {past : Nat}
    {result : Except Fault (Option α) × Std.HashSet α × Wrapped σ}
    (h : Search m limit chances seen s' past result) :
    Search m limit (chances + 1) seen s (past + 1) result := by
  have hs' : (m.generate s).2 = s' := congrArg Prod.snd hgenerate
  have hnext (i : Nat) : m.answer (i + 1) s = m.answer i s' := by rw [m.answer_succ, hs']
  exact
    { source := by rw [h.source, m.after_succ (past + 1), hs']
      past_le := Nat.succ_le_succ h.past_le
      past_old := by
        intro i hi
        cases i with
        | zero => exact ⟨v, hold, congrArg Prod.fst hgenerate⟩
        | succ i =>
          rw [hnext]
          exact h.past_old i (Nat.lt_of_succ_lt_succ hi)
      ends := by
        rw [hnext]
        exact h.ends
      given_up := by
        intro v hv hanswer
        rw [hnext] at hanswer
        rw [h.given_up v hv hanswer] }

/-- A search is what its first value makes of it, or what comes after a repeated value. -/
theorem search_step {s : σ} (hrepeated : ∀ v ∈ seen, ∀ s', m.generate s = (.ok (some v), s') →
      Search m limit chances seen s
        (match chances with
          | 0 => 0
          | chances + 1 => passes m seen chances s' + 1)
        (match chances with
          | 0 => (.error (.repeatedValues (max 1 limit) seen.size), seen, ⟨s', .running⟩)
          | chances + 1 => seek m limit chances seen ⟨s', .running⟩)) :
    Search m limit chances seen s (passes m seen chances s)
      (seek m limit chances seen ⟨s, .running⟩) := by
  unfold passes seek
  rcases hgenerate : m.generate s with ⟨fault | _ | v, s'⟩
  all_goals simp only [Wrapped.generate, Phase.requireRunning, hgenerate]
  · exact search_first hgenerate (.failed fault) nofun
  · exact search_first hgenerate .ended nofun
  · by_cases hold : v ∈ seen
    · have hcontains : seen.contains v = true := hold
      simp only [if_pos hcontains]
      exact hrepeated v hold s' hgenerate
    · have hcontains : ¬ seen.contains v = true := hold
      simp only [if_neg hcontains]
      refine search_first hgenerate (.fresh v hold) fun v' hv' h => absurd hv' ?_
      rwa [← Option.some.inj (Except.ok.inj h)]

theorem seek_search (m : Machine σ α) (limit chances : Nat) (seen : Std.HashSet α) (s : σ) :
    Search m limit chances seen s (passes m seen chances s)
      (seek m limit chances seen ⟨s, .running⟩) := by
  -- every chance is for one more repeated value
  induction chances generalizing s with
  | zero =>
    exact search_step fun v hv s' hgenerate =>
      search_first hgenerate (.repeated v hv) fun _ _ _ => rfl
  | succ chances ih =>
    exact search_step fun v hv s' hgenerate => .past_cons hgenerate hv (ih s')

/-! ## One call -/

/-- All values that a search may read are repeated. -/
def Exhausts (m : Machine σ α) (limit : Nat) (emitted : List α) (s : σ) : Prop :=
  ∀ i < max 1 limit, ∃ v ∈ emitted, m.answer i s = .ok (some v)

/-- **What a call of `generate` answers** after some values have been passed on.  It reads the
source, which is in the state `s`, a number of times. -/
structure Answers (m : Machine σ α) (limit : Nat) (emitted : List α) (s : σ) (read : Nat)
    (answer : Except Fault (Option α)) : Prop where
  read_pos : 0 < read
  read_le : read ≤ max 1 limit
  /-- All values that are read before the last one are repeated. -/
  repeated : ∀ i, i + 1 < read → ∃ v ∈ emitted, m.answer i s = .ok (some v)
  found : ∀ v, answer = .ok (some v) ↔ m.answer (read - 1) s = .ok (some v) ∧ v ∉ emitted
  ended : answer = .ok none ↔ m.answer (read - 1) s = .ok none
  /-- A failure is one of the source, or there have been too many repeated values in a row. -/
  failed : ∀ fault, answer = .error fault ↔ m.answer (read - 1) s = .error fault ∨
    Exhausts m limit emitted s ∧ fault = .repeatedValues (max 1 limit) emitted.length
  illegal : Exhausts m limit emitted s →
    read = max 1 limit ∧ ∃ fault, answer = .error fault ∧ fault.kind = .illegalState

section Pass

variable {s : σ} {emitted : List α}

variable {past : Nat} {result : Except Fault (Option α) × Std.HashSet α × Wrapped σ}

theorem Search.past_emitted (h : Search m limit chances seen s past result)
    (hseen : ∀ v, v ∈ seen ↔ v ∈ emitted) {i : Nat} (hi : i < past) :
    ∃ v ∈ emitted, m.answer i s = .ok (some v) := by
  obtain ⟨v, hv, hanswer⟩ := h.past_old i hi
  exact ⟨v, (hseen v).mp hv, hanswer⟩

/-- All values that a search may read are repeated if it has ended with a repeated one. -/
theorem Search.exhausts_iff (h : Search m limit (limit - 1) seen s past result)
    (hseen : ∀ v, v ∈ seen ↔ v ∈ emitted) :
    Exhausts m limit emitted s ↔ ∃ v ∈ seen, m.answer past s = .ok (some v) := by
  have hle := h.past_le
  constructor
  · intro hall
    obtain ⟨v, hv, hanswer⟩ := hall past (by omega)
    exact ⟨v, (hseen v).mpr hv, hanswer⟩
  · rintro ⟨v, hv, hanswer⟩ i hi
    have hgiven := h.given_up v hv hanswer
    obtain hi | rfl : i < past ∨ i = past := by omega
    · exact h.past_emitted hseen hi
    · exact ⟨v, (hseen v).mp hv, hanswer⟩

/-- A search answers as it should. -/
theorem Search.answers (h : Search m limit (limit - 1) seen s past result)
    (hseen : ∀ v, v ∈ seen ↔ v ∈ emitted) (hcount : seen.size = emitted.length) :
    Answers m limit emitted s (past + 1) result.1 := by
  have hle := h.past_le
  have hexhausts := h.exhausts_iff hseen
  have hends := h.ends
  -- the last value that is read decides about the answer
  generalize hanswer : m.answer past s = last at hends hexhausts
  generalize result.1 = answer, result.2.1 = seen' at hends
  refine ⟨Nat.succ_pos past, by omega, fun i hi => h.past_emitted hseen (by omega), ?found, ?ended,
    ?failed, ?illegal⟩
  case found =>
    intro v
    rw [Nat.add_sub_cancel, hanswer, ← hseen]
    cases hends with
    | failed _ | ended => simp
    | fresh v' new => exact ⟨fun heq => ⟨heq, by cases heq; exact new⟩, And.left⟩
    | repeated v' old => exact ⟨nofun, fun ⟨heq, new⟩ => absurd old (by cases heq; exact new)⟩
  case ended =>
    rw [Nat.add_sub_cancel, hanswer]
    cases hends <;> simp
  case failed =>
    intro fault
    rw [Nat.add_sub_cancel, hanswer, hexhausts, ← hcount]
    cases hends with
    | failed _ | ended => simp
    | fresh v new => simp [new]
    | repeated v old => simp [old, eq_comm]
  case illegal =>
    rw [hexhausts]
    rintro ⟨v, old, hv⟩
    have hgiven := h.given_up v old (hanswer.trans hv)
    refine ⟨by omega, ?_⟩
    cases hends with
    | failed _ | ended => cases hv
    | fresh v' new =>
      cases hv
      exact absurd old new
    | repeated v' _ => exact ⟨_, rfl, rfl⟩

/-! ## A pass -/

/-- **Where a generator is in a pass.**  Its source, which began the pass in the state `s`, has
been read a number of times; the first occurrences of what it handed out have been passed on, and
they are remembered. -/
structure Sifted (m : Machine σ α) (s : σ) (read : Nat) (emitted : List α) (u : Unique σ α) :
    Prop where
  source : u.wrapped = ⟨m.after read s, .running⟩
  occurrences : emitted = (m.stream read s).eraseDups
  seen : ∀ v, v ∈ u.seen ↔ v ∈ emitted
  count : u.seen.size = emitted.length

/-- The number of values that a call of `generate` reads. -/
def pulls (m : Machine σ α) (u : Unique σ α) : Nat :=
  passes m u.seen (u.limit - 1) u.wrapped.source + 1

variable {u : Unique σ α} {read : Nat} {explicit : Bool}

theorem Sifted.search (h : Sifted m s read emitted u) :
    Search m u.limit (u.limit - 1) u.seen (m.after read s) (pulls m u - 1)
      (seek m u.limit (u.limit - 1) u.seen u.wrapped) := by
  rw [pulls, h.source]
  exact seek_search m u.limit (u.limit - 1) u.seen (m.after read s)

theorem Sifted.answers (h : Sifted m s read emitted u) :
    Answers m u.limit emitted (m.after read s) (pulls m u)
      ((machine m explicit).generate u).1 :=
  h.search.answers h.seen h.count

/-- A call that passes nothing on remembers nothing. -/
theorem Sifted.unchanged (h : Sifted m s read emitted u)
    (hnone : ∀ v, ((machine m explicit).generate u).1 ≠ .ok (some v)) :
    ((machine m explicit).generate u).2.seen = u.seen := by
  rcases h.search.ends.cases with ⟨hseen, -⟩ | ⟨v, -, -, hanswer, -⟩
  · exact hseen
  · exact absurd (Machine.valueOf_eq_some.mp hanswer) (hnone v)

/-- No value that a search goes past is a first occurrence. -/
theorem Sifted.stream [LawfulBEq α] (h : Sifted m s read emitted u) :
    ∃ values, m.stream (read + pulls m u) s =
        values ++ (valueOf (m.answer (pulls m u - 1) (m.after read s))).toList ∧
      values.eraseDups = emitted := by
  refine ⟨m.stream read s ++ m.stream (pulls m u - 1) (m.after read s), ?_, ?_⟩
  · rw [m.stream_add, show pulls m u = pulls m u - 1 + 1 from rfl, m.stream_succ,
      List.append_assoc]
    rfl
  · rw [eraseDups_append_of_old, h.occurrences]
    intro v hv
    obtain ⟨i, hi, hanswer⟩ := m.mem_stream.mp hv
    obtain ⟨v', hv', hanswer'⟩ := h.search.past_emitted h.seen hi
    obtain rfl := Option.some.inj (Except.ok.inj (hanswer.symm.trans hanswer'))
    rwa [h.occurrences, List.mem_eraseDups] at hv'

/-- **A call of `generate` goes on in the pass**, and what it passes on is the next first
occurrence. -/
theorem Sifted.generate [LawfulBEq α] (h : Sifted m s read emitted u) :
    Sifted m s (read + pulls m u)
      (emitted ++ (valueOf ((machine m explicit).generate u).1).toList)
      ((machine m explicit).generate u).2 := by
  obtain ⟨values, hstream, hvalues⟩ := h.stream
  have hmem (v : α) : v ∈ values ↔ v ∈ u.seen := by
    rw [h.seen, ← hvalues, List.mem_eraseDups]
  have hsource := h.search.source
  rw [← m.after_add] at hsource
  rcases h.search.ends.cases with
    ⟨hseen, hanswer, hlast⟩ | ⟨v, new, hseen, hanswer, hlast⟩
  · -- nothing is passed on, so the last value is an old one or none at all
    rw [generate_eq, hseen, hanswer, Option.toList_none, List.append_nil]
    refine ⟨hsource, ?_, h.seen, h.count⟩
    rw [hstream, eraseDups_append_of_old, hvalues]
    intro v hv
    exact (hmem v).mpr (hlast v (Option.mem_toList.mp hv))
  · -- the last value is a new one, and it is passed on
    rw [generate_eq, hseen, hanswer, Option.toList_some]
    refine ⟨hsource, ?_, ?_, ?_⟩
    · rw [hstream, hlast, Option.toList_some,
        eraseDups_concat_of_new ((hmem v).not.mpr new), hvalues]
    · intro v'
      rw [Std.HashSet.mem_insert, List.mem_append, List.mem_singleton, h.seen, beq_iff_eq, or_comm,
        eq_comm]
    · rw [Std.HashSet.size_insert, if_neg new, h.count, List.length_append]
      rfl

/-- A call of `init` is refused and changes nothing but the limit. -/
theorem Sifted.init (h : Sifted m s read emitted u) (context : Context) (streams : Streams) :
    Sifted m s read emitted ((machine m explicit).init context u streams).2.1 := by
  obtain ⟨w, seen, limit⟩ := u
  obtain rfl := h.source
  exact ⟨rfl, h.occurrences, h.seen, h.count⟩

/-- A pass begins with nothing read and nothing remembered. -/
theorem sifted_empty (m : Machine σ α) (s : σ) (limit : Nat) :
    Sifted m s 0 [] (⟨⟨s, .running⟩, ∅, limit⟩ : Unique σ α) where
  source := rfl
  occurrences := rfl
  seen := by simp
  count := Std.HashSet.size_empty

end Pass

/-! ## Whole passes -/

/-- A call that neither begins nor ends a pass of a running generator. -/
def Within (c : Call) : Prop := c ≠ .reset ∧ c ≠ .close

/-- **A pass sifts the values of its source.**  A run is at the beginning of a pass over a source
in the state `s`, and `read` tells how many values are read by the calls of the pass. -/
structure Sifts (m : Machine σ α) (explicit : Bool) (s : σ) (r : Run (Unique σ α) α)
    (read : List Call → Nat) : Prop where
  start : read [] = 0
  /-- The values that have been passed on are the first occurrences, and are remembered. -/
  sifted : ∀ calls, (∀ c ∈ calls, Within c) →
    Sifted m s (read calls) ((machine m explicit).handed calls r)
      ((machine m explicit).run calls r).state
  refused : ∀ calls context, read (calls ++ [.init context]) = read calls
  answers : ∀ calls, (∀ c ∈ calls, Within c) →
    let now := ((machine m explicit).run calls r).state
    ∃ n, read (calls ++ [.generate]) = read calls + n ∧
      Answers m now.limit ((machine m explicit).handed calls r) (m.after (read calls) s) n
        ((machine m explicit).generate now).1
  /-- Nothing is remembered if nothing is passed on. -/
  unchanged : ∀ calls, (∀ c ∈ calls, Within c) →
    let now := ((machine m explicit).run calls r).state
    (∀ v, ((machine m explicit).generate now).1 ≠ .ok (some v)) →
      ((machine m explicit).generate now).2.seen = now.seen

/-- The number of values that the calls of a run read. -/
def readBy (m : Machine σ α) (explicit : Bool) : List Call → Run (Unique σ α) α → Nat
  | [], _ => 0
  | .generate :: calls, r =>
    pulls m r.state + readBy m explicit calls ((machine m explicit).call r .generate)
  | c :: calls, r => readBy m explicit calls ((machine m explicit).call r c)

section Whole

variable {m : Machine σ α} {explicit : Bool} {s : σ} {r : Run (Unique σ α) α}

theorem readBy_append (calls calls' : List Call) (r : Run (Unique σ α) α) :
    readBy m explicit (calls ++ calls') r =
      readBy m explicit calls r + readBy m explicit calls' ((machine m explicit).run calls r) := by
  induction calls generalizing r with
  | nil => simp [readBy, Machine.run]
  | cons c calls ih =>
    cases c with
    | generate =>
      simp only [List.cons_append, readBy, ih, Nat.add_assoc, Machine.run, List.foldl_cons]
    | init _ | reset | close => exact ih _

/-- What a run has passed on and read so far, and what the rest of it adds. -/
theorem sifted_run [LawfulBEq α] {calls : List Call} (hcalls : ∀ c ∈ calls, Within c) {read : Nat}
    {emitted : List α} (h : Sifted m s read emitted r.state) :
    Sifted m s (read + readBy m explicit calls r) (emitted ++ (machine m explicit).handed calls r)
      ((machine m explicit).run calls r).state := by
  induction calls generalizing r read emitted with
  | nil => simpa [readBy, Machine.handed, Machine.run] using h
  | cons c calls ih =>
    have hrest := fun c hc => hcalls c (List.mem_cons_of_mem _ hc)
    cases c with
    | init context => exact ih hrest (h.init context r.streams)
    | generate =>
      have hnext : Sifted m s _ _ ((machine m explicit).generate r.state).2 := h.generate
      rw [← (Machine.call_generate r).1] at hnext
      simpa [readBy, Machine.handed, Machine.run, Nat.add_assoc] using ih hrest hnext
    | reset => exact absurd rfl (hcalls .reset List.mem_cons_self).1
    | close => exact absurd rfl (hcalls .close List.mem_cons_self).2

theorem Sifted.sifts [LawfulBEq α] (h : Sifted m s 0 [] r.state) :
    Sifts m explicit s r (readBy m explicit · r) := by
  have hsifted (calls : List Call) (hcalls : ∀ c ∈ calls, Within c) :
      Sifted m s (readBy m explicit calls r) ((machine m explicit).handed calls r)
        ((machine m explicit).run calls r).state := by
    simpa only [Nat.zero_add, List.nil_append] using sifted_run hcalls h
  exact
    { start := rfl
      sifted := hsifted
      refused := fun calls context => by rw [readBy_append]; rfl
      answers := fun calls hcalls => ⟨_, readBy_append calls _ r, (hsifted calls hcalls).answers⟩
      unchanged := fun calls hcalls => (hsifted calls hcalls).unchanged }

end Whole

/-! ## Any history -/

section History

variable {m : Machine σ α} {explicit : Bool} {u : Unique σ α}

/-- A reset forgets the values, whatever its source does. -/
theorem reset_snd (m : Machine σ α) (explicit : Bool) (u : Unique σ α) (streams : Streams) :
    ((machine m explicit).reset u streams).2.1 =
      ⟨(u.wrapped.reset owner m streams).2.1, ∅, u.limit⟩ := by
  simp only [machine]
  split <;> simp_all

/-- The settings of the last initialization. -/
def settingsAfter (calls : List Call) : Settings :=
  calls.foldl (fun settings c =>
    match c with
    | .init context => context.settings
    | _ => settings) {}

/-- The limit that is in force after some calls: the larger one of the thresholds that were given,
or else of those in the settings. -/
def limitAfter (thresholds : Option (Nat × Nat)) (calls : List Call) : Nat :=
  match thresholds with
  | some (warn, fail) => max warn fail
  | none =>
    max (settingsAfter calls).uniqueWarnThreshold (settingsAfter calls).uniqueErrorThreshold

theorem limit_call (r : Run (Unique σ α) α) (c : Call) :
    ((machine m explicit).call r c).state.limit =
      match c with
      | .init context => if explicit then r.state.limit else settingsLimit context.settings
      | _ => r.state.limit := by
  cases c with
  | init _ | close => rfl
  | generate =>
    rw [(Machine.call_generate r).1]
    rfl
  | reset =>
    show ((machine m explicit).reset r.state r.streams).2.1.limit = r.state.limit
    rw [reset_snd]

theorem limit_run (m : Machine σ α) (thresholds : Option (Nat × Nat)) (source : σ)
    (streams : Streams) (calls : List Call) :
    let limit := thresholds.map fun t => limitOf t.1 t.2
    ((machine m limit.isSome).run calls (.start (new source limit) streams)).state.limit =
      limitAfter thresholds calls := by
  intro limit
  induction calls using List.reverseRecOn with
  | nil =>
    cases thresholds with
    | none => exact Nat.max_comm _ _
    | some t => exact Nat.max_comm _ _
  | append_singleton calls c ih =>
    rw [Machine.run, List.foldl_concat, limit_call]
    cases thresholds with
    | some t => cases c <;> exact ih
    | none =>
      rw [limitAfter, settingsAfter, List.foldl_concat]
      cases c with
      | init context => exact Nat.max_comm _ _
      | generate | reset | close => exact ih

/-- A generator that does not run remembers nothing. -/
def Forgets (u : Unique σ α) : Prop := u.wrapped.phase ≠ .running → u.seen = ∅

theorem keeps_forgets (m : Machine σ α) (explicit : Bool) :
    (machine m explicit).Keeps Forgets where
  init := by
    intro context u streams hu hphase
    refine hu fun running => hphase ?_
    show (u.wrapped.init owner m context streams).2.1.phase = .running
    have hopens := u.wrapped.init_opens owner m context streams
    generalize (u.wrapped.init owner m context streams).2.1 = w,
      (u.wrapped.init owner m context streams).1 = answer at hopens
    -- what is remembered is not touched, so a generator that ran must still run
    cases hopens with
    | refused _ _ => exact running
    | failed _ _ _ _ _ => exact running
    | opened _ _ _ _ => rfl
  generate := by
    intro u hu hphase
    rw [generate_eq] at hphase ⊢
    obtain ⟨hsame, ⟨-, hseen⟩ | ⟨v, -, running, -⟩⟩ :=
      seek_sought m u.limit (u.limit - 1) u.seen u.wrapped
    · exact hseen.trans (hu (hsame ▸ hphase))
    · exact absurd (hsame.trans running) hphase
  reset := by
    intro u streams _ _
    rw [reset_snd]
  close := fun _ _ _ => rfl

theorem Forgets.init_begins (hu : Forgets u) {context : Context} {streams : Streams}
    (hok : ((machine m explicit).init context u streams).1 = .ok ()) :
    Sifted m (m.init context u.wrapped.source streams).2.1 0 []
      ((machine m explicit).init context u streams).2.1 := by
  obtain ⟨⟨source, phase⟩, seen, limit⟩ := u
  cases phase with
  | running => cases hok
  | closed => cases hok
  | created =>
    obtain rfl : seen = ∅ := hu nofun
    rcases hinit : m.init context source streams with ⟨fault | _, source', streams'⟩
    · simp [machine, Wrapped.init, Phase.requireCreated, hinit] at hok
    · simpa [machine, Wrapped.init, Phase.requireCreated, hinit] using sifted_empty m source' _

theorem reset_begins (hrunning : u.wrapped.phase = .running) (streams : Streams) :
    Sifted m (m.reset u.wrapped.source streams).2.1 0 []
      ((machine m explicit).reset u streams).2.1 := by
  obtain ⟨⟨source, phase⟩, seen, limit⟩ := u
  obtain rfl : phase = .running := hrunning
  rw [reset_snd]
  rcases hreset : m.reset source streams with ⟨fault | _, source', streams'⟩
  · simpa [Wrapped.reset, hreset] using sifted_empty m source' limit
  · simpa [Wrapped.reset, hreset] using sifted_empty m source' limit

/-- A generator that is reset before it was initialized is initialized with a context of its own. -/
theorem reset_opens (hcreated : u.wrapped.phase = .created) {streams : Streams}
    (hok : ((machine m explicit).reset u streams).1 = .ok ()) :
    Sifted m (m.init streams.defaultContext.1 u.wrapped.source streams.defaultContext.2).2.1 0 []
      ((machine m explicit).reset u streams).2.1 := by
  obtain ⟨⟨source, phase⟩, seen, limit⟩ := u
  obtain rfl : phase = .created := hcreated
  rcases hinit : m.init streams.defaultContext.1 source streams.defaultContext.2 with
    ⟨fault | _, source', streams'⟩
  · simp [machine, Wrapped.reset, Wrapped.init, Phase.requireCreated, hinit] at hok
  · rw [reset_snd]
    simpa [Wrapped.reset, Wrapped.init, Phase.requireCreated, hinit] using
      sifted_empty m source' limit

end History

/-- **A unique generator passes on the first occurrences of its source's values.**  After any
history of calls, the limit is the larger one of the thresholds in force, and a generator that does
not run remembers nothing.  A call of `init` that succeeds begins a pass over the source as it has
left it, and so does a call of `reset`: in this pass the values are sifted (`Sifts`). -/
theorem pass_first_occurrences [LawfulBEq α] (m : Machine σ α) (thresholds : Option (Nat × Nat))
    (source : σ) (streams : Streams) (calls : List Call) :
    let limit := thresholds.map fun t => limitOf t.1 t.2
    let unique := machine m limit.isSome
    let r := unique.run calls (.start (new source limit) streams)
    r.state.limit = limitAfter thresholds calls ∧
      (r.state.wrapped.phase ≠ .running → r.state.seen.size = 0) ∧
      (∀ context, (unique.init context r.state r.streams).1 = .ok () →
        ∃ read, Sifts m limit.isSome (m.init context r.state.wrapped.source r.streams).2.1
          (unique.call r (.init context)) read) ∧
      (r.state.wrapped.phase = .running →
        ∃ read, Sifts m limit.isSome (m.reset r.state.wrapped.source r.streams).2.1
          (unique.call r .reset) read) ∧
      ((unique.reset r.state r.streams).1 = .ok () → r.state.wrapped.phase = .created →
        ∃ read, Sifts m limit.isSome
          (m.init r.streams.defaultContext.1 r.state.wrapped.source
            r.streams.defaultContext.2).2.1
          (unique.call r .reset) read) := by
  intro limit unique r
  have hforgets : Forgets r.state :=
    (keeps_forgets m limit.isSome).run (r := .start (new source limit) streams) (fun _ => rfl)
      calls
  refine ⟨limit_run m thresholds source streams calls, ?_, ?_, ?_, ?_⟩
  · intro hphase
    rw [hforgets hphase]
    exact Std.HashSet.size_empty
  · intro context hok
    exact ⟨_, Sifted.sifts (r := unique.call r (.init context)) (hforgets.init_begins hok)⟩
  · intro hrunning
    have hbegins : Sifted m (m.reset r.state.wrapped.source r.streams).2.1 0 []
        (unique.reset r.state r.streams).2.1 := reset_begins hrunning r.streams
    exact ⟨_, Sifted.sifts (r := unique.call r .reset) hbegins⟩
  · intro hok hcreated
    exact ⟨_, Sifted.sifts (r := unique.call r .reset) (reset_opens hcreated hok)⟩

/-- A pass over three numbers begins when the generator is initialized, when it is reset, and when
it is reset without having been initialized. -/
theorem pass_first_occurrences_threeNumbers :
    let unique := machine Listed.machine true
    let start : Run (Unique (Leaf (Listed Nat)) Nat) Nat :=
      .start (new (Listed.new #[4, 7, 4]) (some 2)) (.start fun _ => .ofSeed 0)
    let begun := unique.run [.init ⟨{}, 0⟩] start
    let source : Leaf (Listed Nat) := ⟨⟨#[4, 7, 4], 0⟩, .running⟩
    (start.state.wrapped.phase ≠ .running ∧ start.state.seen.size = 0) ∧
      ((unique.init ⟨{}, 0⟩ start.state start.streams).1 = .ok () ∧
        ∃ read, Sifts Listed.machine true source (unique.call start (.init ⟨{}, 0⟩)) read) ∧
      (begun.state.wrapped.phase = .running ∧
        ∃ read, Sifts Listed.machine true source (unique.call begun .reset) read) ∧
      ((unique.reset start.state start.streams).1 = .ok () ∧
        ∃ read, Sifts Listed.machine true source (unique.call start .reset) read) := by
  intro unique start begun source
  have hstart := pass_first_occurrences Listed.machine (some (1, 2))
    (Listed.new #[4, 7, 4]) (.start fun _ => .ofSeed 0) []
  have hbegun := pass_first_occurrences Listed.machine (some (1, 2))
    (Listed.new #[4, 7, 4]) (.start fun _ => .ofSeed 0) [.init ⟨{}, 0⟩]
  exact ⟨⟨nofun, hstart.2.1 nofun⟩, ⟨rfl, hstart.2.2.1 _ rfl⟩, ⟨rfl, hbegun.2.2.2.1 rfl⟩,
    ⟨rfl, hstart.2.2.2.2 rfl rfl⟩⟩

/-- Two repeated values in a row are a failure, and the new one after them comes with the next
call. -/
example :
    let unique := machine Listed.machine true
    let start : Run (Unique (Leaf (Listed Nat)) Nat) Nat :=
      .start (new (Listed.new #[4, 4, 7, 7, 4, 9]) (some 2)) (.start fun _ => .ofSeed 0)
    let begun := unique.call start (.init ⟨{}, 0⟩)
    unique.handed [.generate, .generate, .generate] begun = [4, 7] ∧
      unique.handed [.generate, .generate, .generate, .generate] begun = [4, 7, 9] := by
  cbv

end Unique
end SynthData
