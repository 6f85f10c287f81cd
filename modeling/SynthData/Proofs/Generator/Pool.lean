import SynthData.Proofs.Generator.Expand
import SynthData.Proofs.Generator.Marked

/-!
# What a pool hands out

Which members of its pool an expander hands out depends on what it draws.  `emitAt` is a call with
given draws, and `afterDraws` and `streamDraws` follow a pass of such calls; so what holds for all
draws can be said of it, and the calls of the generator are such calls (`machine_draws`).

A pass without repetitions has read some values of its source: those that it has handed out and
those in the pool (`Course.values`).  Each call reads one value more than the pool grows by
(`Course.balance`), so the source runs ahead of the calls by the size of the pool, until the pool
is drained.  One call keeps all of this (`Course.emitAt`), and from it follows what a whole pass
hands out (`Passes`), for sources whose values carry their positions too.
-/
namespace SynthData.Expand

variable {σ τ α β : Type} {m : Machine σ α}

/-! ## Calls with given draws -/

/-- What a call draws from a pool of each size: a place, and whether its member stays. -/
structure Draw where
  place : Nat → Nat
  keep : Nat → Bool
  place_lt : ∀ size, 0 < size → place size < size

/-- A call of a running expander that draws what is given. -/
def emitAt (m : Machine σ α) (unique : Bool) (d : Draw) (e : Expand σ α) :
    Except Fault (Option α) × Expand σ α :=
  match refill m e with
  | (.error fault, e) => (.error fault, e)
  | (.ok _, e) =>
    if e.pool.isEmpty then (.ok none, e)
    else handOut m unique (d.place e.pool.size) (d.keep e.pool.size) e

section Draws

variable (m : Machine σ α) (unique : Bool) (draws : Nat → Draw) (e : Expand σ α)

/-- The expander after some calls, each of which draws what is given for it. -/
def afterDraws : (calls : Nat) → Expand σ α
  | 0 => e
  | k + 1 => (emitAt m unique (draws k) (afterDraws k)).2

/-- The answer to the call that comes after `k` others. -/
def answerDraws (k : Nat) : Except Fault (Option α) :=
  (emitAt m unique (draws k) (afterDraws m unique draws e k)).1

/-- The values that the first calls hand out, in their order. -/
def streamDraws (calls : Nat) : List α :=
  (List.range calls).filterMap fun k => Machine.valueOf (answerDraws m unique draws e k)

theorem streamDraws_succ (k : Nat) :
    streamDraws m unique draws e (k + 1) = streamDraws m unique draws e k ++
      (Machine.valueOf (answerDraws m unique draws e k)).toList := by
  rw [streamDraws, streamDraws, List.range_succ, List.filterMap_append]
  cases h : Machine.valueOf (answerDraws m unique draws e k) <;> simp [h]

end Draws

/-! ## Reading -/

/-- How far a source has been asked: it has not run out before the answer `asked`, and whether it
runs out there is known if it is `depleted`. -/
structure Asked (m : Machine σ α) (s : σ) (asked : Nat) (depleted : Bool) (now : σ) : Prop where
  now_eq : now = m.after (if depleted then asked + 1 else asked) s
  before : ∀ j, j < asked → m.answer j s ≠ .ok none
  known : depleted = true → m.answer asked s = .ok none

variable {s : σ} {asked : Nat}

theorem Asked.le {depleted : Bool} {now : σ} (h : Asked m s asked depleted now) {n : Nat}
    (hn : m.answer n s = .ok none) : asked ≤ n := by
  by_contra hlt
  exact h.before n (by omega) hn

/-- An answer is read, unless it is known that there is none. -/
theorem pull_asked {depleted : Bool} {w : Wrapped σ} (h : Asked m s asked depleted w.source) :
    ∃ asked', Asked m s asked' (pull m depleted w).2.2 (pull m depleted w).2.1.source ∧
      m.stream asked' s =
        m.stream asked s ++ (Machine.valueOf (pull m depleted w).1).toList ∧
      ((pull m depleted w).1 = .ok none ∧ asked' = asked ∧ (pull m depleted w).2.2 = true ∨
        (pull m depleted w).1 ≠ .ok none ∧ asked' = asked + 1 ∧
          (pull m depleted w).2.2 = false) := by
  obtain ⟨source, phase⟩ := w
  unfold pull
  cases depleted with
  | true => exact ⟨asked, h, by simp [Machine.valueOf], Or.inl ⟨rfl, rfl, rfl⟩⟩
  | false =>
    obtain rfl : source = m.after asked s := h.now_eq
    have hstream := m.stream_succ asked s
    have hanswer : m.answer asked s = (m.generate (m.after asked s)).1 := rfl
    have hafter : m.after (asked + 1) s = (m.generate (m.after asked s)).2 := rfl
    have hnext (hsome : m.answer asked s ≠ .ok none) :
        Asked m s (asked + 1) false (m.after (asked + 1) s) := by
      refine ⟨rfl, ?_, by simp⟩
      intro j hj
      by_cases hlast : j = asked
      · exact hlast ▸ hsome
      · exact h.before j (by omega)
    rcases hgenerate : m.generate (m.after asked s) with ⟨fault | _ | v, source⟩
    all_goals
      rw [hgenerate] at hanswer hafter
      rw [hanswer] at hstream
      simp only [hgenerate]
      obtain rfl : m.after (asked + 1) s = source := hafter
    · exact ⟨asked + 1, hnext (by simp [hanswer]), hstream, Or.inr ⟨by simp, rfl, rfl⟩⟩
    · exact ⟨asked, ⟨rfl, h.before, fun _ => hanswer⟩, by simp [Machine.valueOf],
        Or.inl ⟨rfl, rfl, rfl⟩⟩
    · exact ⟨asked + 1, hnext (by simp [hanswer]), hstream, Or.inr ⟨by simp, rfl, rfl⟩⟩

/-- **Filling reads the next values of the source**, until there is no room left or the source has
run out; a failure is an answer too. -/
theorem fill_asked {depleted : Bool} {w : Wrapped σ} (h : Asked m s asked depleted w.source)
    (room : Nat) (pool : Array α) :
    ∃ asked' read,
      Asked m s asked' (fill m room pool depleted w).2.2.1
        (fill m room pool depleted w).2.2.2.source ∧
      (fill m room pool depleted w).2.1.toList = pool.toList ++ read ∧
      m.stream asked' s = m.stream asked s ++ read ∧ read.length ≤ room ∧
      ((fill m room pool depleted w).1 = .ok () ∧ asked' = asked + read.length ∧
          (read.length = room ∨ (fill m room pool depleted w).2.2.1 = true) ∨
        (fill m room pool depleted w).1 ≠ .ok () ∧ asked' = asked + read.length + 1 ∧
          (fill m room pool depleted w).2.2.1 = false) := by
  -- the induction is on the room, and every value that is read moves the source on
  induction room generalizing pool depleted w asked with
  | zero =>
    exact ⟨asked, [], h, by simp [fill], by simp, Nat.le_refl 0, Or.inl ⟨rfl, rfl, Or.inl rfl⟩⟩
  | succ room ih =>
    obtain ⟨asked', hasked, hstream, hcases⟩ := pull_asked h
    rcases hpull : pull m depleted w with ⟨fault | _ | v, w', depleted'⟩
    all_goals
      rw [hpull] at hasked hstream hcases
      simp only [fill, hpull]
    · obtain ⟨hnone, -⟩ | ⟨-, rfl, hd⟩ := hcases
      · cases hnone
      · exact ⟨asked + 1, [], hasked, by simp, hstream, Nat.zero_le _, Or.inr ⟨by simp, rfl, hd⟩⟩
    · obtain ⟨-, rfl, hd⟩ | ⟨hsome, -⟩ := hcases
      · exact ⟨asked', [], hasked, by simp, by simp, Nat.zero_le _,
          Or.inl ⟨trivial, rfl, Or.inr hd⟩⟩
      · exact absurd rfl hsome
    · obtain ⟨hnone, -⟩ | ⟨-, rfl, hd⟩ := hcases
      · cases hnone
      · obtain ⟨asked'', read, hasked', hpool, hread, hroom, hresult⟩ := ih hasked (pool.push v)
        refine ⟨asked'', v :: read, hasked', ?_, ?_, Nat.succ_le_succ hroom, ?_⟩
        · rw [hpool, Array.toList_push, List.append_assoc]
          rfl
        · rw [hread, hstream, List.append_assoc]
          rfl
        · rw [List.length_cons]
          obtain ⟨hok, hcount, hend⟩ | ⟨hfault, hcount, hend⟩ := hresult
          · exact Or.inl ⟨hok, by omega, hend.imp_left (congrArg Nat.succ)⟩
          · exact Or.inr ⟨hfault, by omega, hend⟩

theorem refill_asked {e : Expand σ α} (h : Asked m s asked e.depleted e.wrapped.source) :
    ∃ asked' read,
      Asked m s asked' (refill m e).2.depleted (refill m e).2.wrapped.source ∧
      (refill m e).2.pool.toList = e.pool.toList ++ read ∧
      m.stream asked' s = m.stream asked s ++ read ∧
      read.length ≤ e.capacity.getD 1 - e.pool.size ∧
      ((refill m e).1 = .ok () ∧ asked' = asked + read.length ∧
          (read.length = e.capacity.getD 1 - e.pool.size ∨ (refill m e).2.depleted = true) ∨
        (refill m e).1 ≠ .ok () ∧ asked' = asked + read.length + 1 ∧
          (refill m e).2.depleted = false) :=
  fill_asked h _ e.pool

/-! ## The course of a pass without repetitions -/

/-- A pass after some calls: what it has handed out so far, and how far its source has been
asked. -/
structure Course (m : Machine σ α) (s : σ) (size calls asked : Nat) (emitted : List α)
    (e : Expand σ α) : Prop where
  capacity_eq : e.capacity = some size
  room : e.pool.size ≤ size
  reading : Asked m s asked e.depleted e.wrapped.source
  /-- What has been read has been handed out or waits in the pool. -/
  values : (emitted ++ e.pool.toList).Perm (m.stream asked s)
  /-- The source is ahead by the members of the pool, as long as it has some or may get some. -/
  balance : asked = calls + e.pool.size ∨
    e.depleted = true ∧ e.pool = #[] ∧ asked ≤ calls
  /-- When a value was handed out, no more values had been read than were handed out before it and
  find room in the pool. -/
  soon : ∀ i v, emitted[i]? = some v →
    ∃ read, v ∈ m.stream read s ∧ (m.stream read s).length ≤ i + size

/-- An expander at the beginning of a pass. -/
structure Begun (size : Nat) (e : Expand σ α) : Prop where
  phase : e.wrapped.phase = .running
  capacity_eq : e.capacity = some size
  size_pos : 0 < size
  pool_eq : e.pool = #[]
  depleted_eq : e.depleted = false
  drawing : ∃ rng, e.rng = some rng

variable {size calls : Nat} {emitted : List α} {e : Expand σ α}

theorem Begun.course (he : Begun size e) : Course m e.wrapped.source size 0 0 [] e where
  capacity_eq := he.capacity_eq
  room := by simp [he.pool_eq]
  reading := ⟨by rw [he.depleted_eq]; rfl, nofun, by rw [he.depleted_eq]; nofun⟩
  values := by simp [he.pool_eq, Machine.stream]
  balance := by simp [he.pool_eq]
  soon := nofun

/-- The pool after it has been filled.  If the source was asked in vain, or if the pool has members
now, the source had not been known to have run out. -/
theorem Course.refill (h : Course m s size calls asked emitted e) :
    ∃ asked', Asked m s asked' (refill m e).2.depleted (refill m e).2.wrapped.source ∧
      (refill m e).2.pool.size ≤ size ∧
      (emitted ++ (refill m e).2.pool.toList).Perm (m.stream asked' s) ∧
      ((refill m e).1 ≠ .ok () ∧ asked' = calls + (refill m e).2.pool.size + 1 ∨
        (refill m e).1 = .ok () ∧ (refill m e).2.pool ≠ #[] ∧
          asked' = calls + (refill m e).2.pool.size ∨
        (refill m e).1 = .ok () ∧ (refill m e).2.pool = #[] ∧ asked' ≤ calls ∧
          (0 < size → (refill m e).2.depleted = true)) := by
  obtain ⟨asked', read, hasked, hpool, hstream, hroom, hresult⟩ := refill_asked h.reading
  have hsize : (Expand.refill m e).2.pool.size = e.pool.size + read.length := by
    have := congrArg List.length hpool
    rwa [List.length_append, Array.length_toList, Array.length_toList] at this
  have hfits := h.room
  have hknown (hd : e.depleted = true) : asked' ≤ asked := hasked.le (h.reading.known hd)
  rw [h.capacity_eq, Option.getD_some] at hroom hresult
  refine ⟨asked', hasked, by omega, ?values, ?balance⟩
  case values =>
    rw [hpool, hstream, ← List.append_assoc]
    exact h.values.append_right read
  case balance =>
    obtain ⟨hok, hcount, hend⟩ | ⟨hfault, hcount, -⟩ := hresult
    · by_cases hempty : (Expand.refill m e).2.pool = #[]
      · rw [hempty, Array.size_empty] at hsize
        refine Or.inr (Or.inr ⟨hok, hempty, ?_, ?_⟩)
        · have := h.balance
          omega
        · intro hpos
          exact hend.resolve_left (by omega)
      · refine Or.inr (Or.inl ⟨hok, hempty, ?_⟩)
        obtain hahead | ⟨hd, hnone, -⟩ := h.balance
        · omega
        · have hsome := Array.size_pos_iff.mpr hempty
          have := hknown hd
          rw [hnone, Array.size_empty] at hsize
          omega
    · refine Or.inl ⟨hfault, ?_⟩
      obtain hahead | ⟨hd, -, -⟩ := h.balance
      · omega
      · have := hknown hd
        omega

/-- A member of the pool comes soon enough, if it is the next value. -/
theorem Course.soon_concat (h : Course m s size calls asked emitted e) {asked' : Nat}
    {pool : Array α} (hvalues : (emitted ++ pool.toList).Perm (m.stream asked' s))
    (hroom : pool.size ≤ size) {v : α} (hv : v ∈ pool) (i : Nat) (u : α)
    (hu : (emitted ++ [v])[i]? = some u) :
    ∃ read, u ∈ m.stream read s ∧ (m.stream read s).length ≤ i + size := by
  by_cases hi : i < emitted.length
  · rw [List.getElem?_append_left hi] at hu
    exact h.soon i u hu
  · rw [List.getElem?_append_right (by omega)] at hu
    obtain rfl := List.mem_singleton.mp (List.mem_of_getElem? hu)
    have hlength := hvalues.length_eq
    have hpool : pool.toList.length = pool.size := Array.length_toList
    rw [List.length_append, hpool] at hlength
    exact ⟨asked', hvalues.subset (List.mem_append_right _ (Array.mem_toList_iff.mpr hv)), by omega⟩

/-- What comes of a pool that has been filled: a failure is passed on, an empty pool has nothing to
hand out, and else the drawn member leaves it. -/
theorem emitAt_unique (m : Machine σ α) (d : Draw) (e : Expand σ α) :
    (∃ fault, (refill m e).1 = .error fault ∧ emitAt m true d e = (.error fault, (refill m e).2)) ∨
      (refill m e).1 = .ok () ∧ (refill m e).2.pool = #[] ∧
        emitAt m true d e = (.ok none, (refill m e).2) ∨
      ∃ index v, (refill m e).1 = .ok () ∧ (refill m e).2.pool[index]? = some v ∧
        emitAt m true d e =
          (.ok (some v), { (refill m e).2 with pool := takeOut (refill m e).2.pool index }) := by
  unfold emitAt
  rcases refill m e with ⟨fault | _, w, pool, capacity, depleted, rng⟩
  · exact Or.inl ⟨fault, rfl, rfl⟩
  · by_cases hempty : pool = #[]
    · subst hempty
      exact Or.inr (Or.inl ⟨rfl, rfl, rfl⟩)
    · have hindex := d.place_lt pool.size (Array.size_pos_iff.mpr hempty)
      refine Or.inr (Or.inr ⟨d.place pool.size, pool[d.place pool.size], rfl, by simp, ?_⟩)
      simp [hempty, handOut, hindex]

/-- **One call keeps the course of a pass**, and it has nothing to hand out exactly if the source
runs out within as many calls. -/
theorem Course.emitAt (h : Course m s size calls asked emitted e) (hpos : 0 < size) (d : Draw) :
    ((emitAt m true d e).1 = .ok none ↔ ∃ j, j ≤ calls ∧ m.answer j s = .ok none) ∧
      ∃ asked', Course m s size (calls + 1) asked'
        (emitted ++ (Machine.valueOf (emitAt m true d e).1).toList) (emitAt m true d e).2 := by
  obtain ⟨asked', hasked, hroom, hvalues, hresult⟩ := h.refill
  have hcapacity : (Expand.refill m e).2.capacity = some size := h.capacity_eq
  have hahead (hcalls : calls < asked') : ¬ ∃ j, j ≤ calls ∧ m.answer j s = .ok none := by
    rintro ⟨j, hj, hnone⟩
    have := hasked.le hnone
    omega
  obtain ⟨fault, hfault, hemit⟩ | ⟨hok, hpool, hemit⟩ | ⟨index, v, hok, hv, hemit⟩ :=
    emitAt_unique m d e
  all_goals rw [hemit]
  · -- a failure is an answer of the source as well
    obtain ⟨-, hcount⟩ | ⟨hok, -⟩ | ⟨hok, -⟩ := hresult
    · refine ⟨iff_of_false (by simp) (hahead (by omega)), asked', hcapacity, hroom, hasked,
        ?_, ?_, ?_⟩
      · simpa [Machine.valueOf] using hvalues
      · exact Or.inl (show asked' = calls + 1 + (Expand.refill m e).2.pool.size by omega)
      · simpa [Machine.valueOf] using h.soon
    · cases hok.symm.trans hfault
    · cases hok.symm.trans hfault
  · obtain ⟨hfault, -⟩ | ⟨-, hsome, -⟩ | ⟨-, -, hcount, hended⟩ := hresult
    · exact absurd hok hfault
    · exact absurd hpool hsome
    · refine ⟨iff_of_true rfl ⟨asked', hcount, hasked.known (hended hpos)⟩, asked', hcapacity,
        hroom, hasked, ?_, ?_, ?_⟩
      · simpa [Machine.valueOf] using hvalues
      · exact Or.inr ⟨hended hpos, hpool, by omega⟩
      · simpa [Machine.valueOf] using h.soon
  · have hperm := takeOut_perm hv
    have hsize : (takeOut (Expand.refill m e).2.pool index).size + 1 =
        (Expand.refill m e).2.pool.size := hperm.length_eq
    obtain ⟨hfault, -⟩ | ⟨-, -, hcount⟩ | ⟨-, hempty, -⟩ := hresult
    · exact absurd hok hfault
    · refine ⟨iff_of_false (by simp) (hahead (by omega)), asked', hcapacity,
        show Array.size (takeOut _ _) ≤ size by omega, hasked, ?_,
        Or.inl (show asked' = calls + 1 + Array.size (takeOut _ _) by omega), ?_⟩
      · show ((emitted ++ [v]) ++ (takeOut (Expand.refill m e).2.pool index).toList).Perm _
        rw [List.append_assoc]
        exact (hperm.append_left emitted).trans hvalues
      · exact h.soon_concat hvalues hroom (Array.mem_of_getElem? hv)
    · rw [hempty] at hv
      cases hv

/-- **A whole pass keeps its course.** -/
theorem Begun.run (he : Begun size e) (draws : Nat → Draw) (k : Nat) :
    ∃ asked, Course m e.wrapped.source size k asked (streamDraws m true draws e k)
      (afterDraws m true draws e k) := by
  induction k with
  | zero => exact ⟨0, he.course⟩
  | succ k ih =>
    obtain ⟨asked, hcourse⟩ := ih
    rw [streamDraws_succ]
    exact (hcourse.emitAt he.size_pos (draws k)).2

end SynthData.Expand
