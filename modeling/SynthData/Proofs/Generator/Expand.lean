import Mathlib.Data.List.Perm.Basic
import SynthData.Generator.Expand
import SynthData.Proofs.Generator.Wrapped

/-!
# Values through a pool

What a pool holds has come from the source, so it is as good as the source's
values (`machine_yields`).

Where the source uses its values up and members leave the pool, the whole does so
too (`machine_spends`): a value is pending while it waits in the pool or is
pending in the source.  The invariant `Apart` says that no value is at two
places.  It survives a reset because a reset that fails leaves the source as it
was, and one that succeeds finds an empty pool or empties it.
-/
namespace SynthData.Expand

variable {σ α : Type} {m : Machine σ α}

/-! ## Filling the pool -/

/-- A property of a source and the pool next to it, which reading keeps, whether
the value that is read goes into the pool or not. -/
structure Reads (m : Machine σ α) (P : σ → Array α → Prop) : Prop where
  pushed : ∀ s pool v, P s pool → (m.generate s).1 = .ok (some v) →
    P (m.generate s).2 (pool.push v)
  dropped : ∀ s pool, P s pool → P (m.generate s).2 pool

/-- A source that is known to have run out is not asked. -/
theorem pull_cases (m : Machine σ α) (depleted : Bool) (w : Wrapped σ) :
    ((pull m depleted w).1 = .ok none ∧ (pull m depleted w).2.1 = w) ∨
      ((pull m depleted w).1 = (m.generate w.source).1 ∧
        (pull m depleted w).2.1 = ⟨(m.generate w.source).2, w.phase⟩) := by
  unfold pull
  cases depleted with
  | true => exact Or.inl ⟨rfl, rfl⟩
  | false =>
    refine Or.inr ?_
    rcases h : m.generate w.source with ⟨_ | _ | v, s⟩ <;> simp [h]

theorem fill_reads {P : σ → Array α → Prop} (hP : Reads m P) (room : Nat) (pool : Array α)
    (depleted : Bool) (w : Wrapped σ) (h : P w.source pool) :
    P (fill m room pool depleted w).2.2.2.source (fill m room pool depleted w).2.1 ∧
      (fill m room pool depleted w).2.2.2.phase = w.phase := by
  induction room generalizing pool depleted w with
  | zero => exact ⟨h, rfl⟩
  | succ room ih =>
    have hcases := pull_cases m depleted w
    rcases hpull : pull m depleted w with ⟨_ | _ | v, w', depleted'⟩
    all_goals
      simp only [hpull] at hcases
      simp only [fill, hpull]
    · rcases hcases with ⟨hnone, -⟩ | ⟨-, rfl⟩
      · cases hnone
      · exact ⟨hP.dropped _ _ h, rfl⟩
    · rcases hcases with ⟨-, rfl⟩ | ⟨-, rfl⟩
      · exact ⟨h, rfl⟩
      · exact ⟨hP.dropped _ _ h, rfl⟩
    · rcases hcases with ⟨hnone, -⟩ | ⟨hsome, rfl⟩
      · cases hnone
      · exact ih (pool.push v) depleted' _ (hP.pushed _ _ v h hsome.symm)

theorem refill_reads {P : σ → Array α → Prop} (hP : Reads m P) {e : Expand σ α}
    (h : P e.wrapped.source e.pool) :
    P (refill m e).2.wrapped.source (refill m e).2.pool ∧
      (refill m e).2.wrapped.phase = e.wrapped.phase :=
  fill_reads hP _ e.pool e.depleted e.wrapped h

/-! ## Taking members out -/

theorem toList_takeOut (pool : Array α) (index : Nat) :
    (pool.toList = [] ∧ takeOut pool index = pool) ∨
      ∃ rest last, pool.toList = rest ++ [last] ∧
        (takeOut pool index).toList = ((rest ++ [last]).set index last).dropLast := by
  obtain ⟨l⟩ := pool
  rcases List.eq_nil_or_concat l with rfl | ⟨rest, last, rfl⟩
  · exact Or.inl ⟨rfl, rfl⟩
  · exact Or.inr ⟨rest, last, by simp, by simp [takeOut]⟩

/-- Nothing but members is left when one is taken out. -/
theorem mem_of_mem_takeOut {pool : Array α} {index : Nat} {a : α} (ha : a ∈ takeOut pool index) :
    a ∈ pool := by
  rw [← Array.mem_toList_iff] at ha ⊢
  rcases toList_takeOut pool index with ⟨-, htake⟩ | ⟨rest, last, hpool, htake⟩
  · rwa [htake] at ha
  · rw [htake] at ha
    rw [hpool]
    rcases List.mem_or_eq_of_mem_set ((List.dropLast_sublist _).subset ha) with ha | rfl
    · exact ha
    · exact List.mem_append_right rest List.mem_cons_self

/-- The member that is taken out and those that are left make up the pool. -/
theorem takeOut_perm {pool : Array α} {index : Nat} {v : α} (h : pool[index]? = some v) :
    (v :: (takeOut pool index).toList).Perm pool.toList := by
  rw [← Array.getElem?_toList] at h
  rcases toList_takeOut pool index with ⟨hnil, -⟩ | ⟨rest, last, hpool, htake⟩
  · rw [hnil] at h
    cases h
  · rw [hpool] at h ⊢
    rw [htake]
    obtain ⟨hlt, hv⟩ := List.getElem?_eq_some_iff.mp h
    by_cases hi : index < rest.length
    · -- the last member moves into the gap
      rw [List.getElem_append_left hi] at hv
      subst hv
      rw [List.set_append_left _ _ hi, List.dropLast_concat]
      refine ((List.set_perm_cons_eraseIdx hi last).cons _).trans ?_
      refine (List.Perm.swap _ _ _).trans ?_
      refine ((List.getElem_cons_eraseIdx_perm hi).cons last).trans ?_
      exact (List.perm_append_singleton last rest).symm
    · obtain rfl : index = rest.length := by
        rw [List.length_append] at hlt
        exact Nat.le_antisymm (Nat.le_of_lt_succ hlt) (Nat.le_of_not_lt hi)
      rw [List.getElem_concat_length rfl] at hv
      subst hv
      rw [List.set_append_right _ _ (Nat.le_refl _)]
      simpa using (List.perm_append_singleton last rest).symm

/-! ## What the calls do -/

theorem init_cases (unique : Bool) (quota : Float) (context : Context) (e : Expand σ α)
    (streams : Streams) :
    ∃ answer, e.wrapped.Opens m answer
        ((machine m unique quota).init context e streams).2.1.wrapped ∧
      (((machine m unique quota).init context e streams).2.1.pool = #[] ∨
        (∃ fault, answer = .error fault) ∧
          ((machine m unique quota).init context e streams).2.1.pool = e.pool) := by
  have hopens := Wrapped.init_opens owner m e.wrapped context streams
  rcases h : e.wrapped.init owner m context streams with ⟨fault | _, w, streams'⟩
  all_goals
    rw [h] at hopens
    refine ⟨_, by simpa [machine, h] using hopens, ?_⟩
  · exact Or.inr ⟨⟨fault, rfl⟩, by simp [machine, h]⟩
  · exact Or.inl (by simp [machine, h])

theorem reset_cases (unique : Bool) (quota : Float) (e : Expand σ α) (streams : Streams) :
    ∃ answer, e.wrapped.Restarts m answer
        ((machine m unique quota).reset e streams).2.1.wrapped ∧
      (((machine m unique quota).reset e streams).2.1.pool = #[] ∨
        answer ≠ .ok false ∧ ((machine m unique quota).reset e streams).2.1.pool = e.pool) := by
  have hrestarts := Wrapped.reset_restarts owner m e.wrapped streams
  rcases h : e.wrapped.reset owner m streams with ⟨fault | opened, w, streams'⟩
  · rw [h] at hrestarts
    exact ⟨.error fault, by simpa [machine, h] using hrestarts,
      Or.inr ⟨nofun, by simp [machine, h]⟩⟩
  · rw [h] at hrestarts
    cases opened with
    | false =>
      exact ⟨.ok false, by simpa [machine, h] using hrestarts, Or.inl (by simp [machine, h])⟩
    | true =>
      exact ⟨.ok true, by simpa [machine, h] using hrestarts,
        Or.inr ⟨nofun, by simp [machine, h]⟩⟩

theorem generate_cases (m : Machine σ α) (unique : Bool) (quota : Float) (e : Expand σ α) :
    ((∃ fault, ((machine m unique quota).generate e).1 = .error fault) ∧
        ((machine m unique quota).generate e).2 = e) ∨
      e.wrapped.phase = .running ∧ (machine m unique quota).generate e = emit m unique quota e := by
  simp only [machine]
  cases hphase : e.wrapped.phase with
  | created => exact Or.inl ⟨⟨_, rfl⟩, rfl⟩
  | closed => exact Or.inl ⟨⟨_, rfl⟩, rfl⟩
  | running => exact Or.inr ⟨rfl, rfl⟩

/-! ## Good values -/

/-- The values of the source and the members of the pool are good. -/
def Sound (inv : σ → Prop) (good : α → Prop) (s : σ) (pool : Array α) : Prop :=
  inv s ∧ ∀ a ∈ pool, good a

variable {inv : σ → Prop} {good : α → Prop}

theorem Sound.empty {s : σ} (hs : inv s) : Sound inv good s #[] :=
  ⟨hs, fun a ha => absurd ha (Array.not_mem_empty a)⟩

theorem reads_sound (hm : m.Yields inv good) : Reads m (Sound inv good) where
  pushed := by
    rintro s pool v ⟨hs, hpool⟩ hv
    refine ⟨hm.generate s hs, fun a ha => ?_⟩
    rcases Array.mem_push.mp ha with ha | rfl
    · exact hpool a ha
    · exact hm.good s a hs hv
  dropped := fun s _ h => ⟨hm.generate s h.1, h.2⟩

theorem handOut_sound (hm : m.Yields inv good) (unique : Bool) (index : Nat) (keep : Bool)
    {e : Expand σ α} (h : Sound inv good e.wrapped.source e.pool) :
    Sound inv good (handOut m unique index keep e).2.wrapped.source
        (handOut m unique index keep e).2.pool ∧
      ∀ v, (handOut m unique index keep e).1 = .ok (some v) → good v := by
  obtain ⟨w, pool, capacity, depleted, rng⟩ := e
  have member (v : α) (hv : (Except.ok pool[index]? : Except Fault (Option α)) = .ok (some v)) :
      good v :=
    h.2 v (Array.mem_of_getElem? (Except.ok.inj hv))
  unfold handOut
  dsimp only
  split
  · exact ⟨⟨h.1, fun a ha => h.2 a (mem_of_mem_takeOut ha)⟩, member⟩
  · split
    · exact ⟨h, member⟩
    · -- the member is replaced by a fresh value, if the source has one
      have hcases := pull_cases m depleted w
      rcases hpull : pull m depleted w with ⟨_ | _ | fresh, w', depleted'⟩
      all_goals simp only [hpull] at hcases
      · rcases hcases with ⟨hnone, -⟩ | ⟨-, rfl⟩
        · cases hnone
        · exact ⟨(reads_sound hm).dropped _ _ h, nofun⟩
      · rcases hcases with ⟨-, rfl⟩ | ⟨-, rfl⟩
        · exact ⟨h, member⟩
        · exact ⟨(reads_sound hm).dropped _ _ h, member⟩
      · rcases hcases with ⟨hnone, -⟩ | ⟨hsome, rfl⟩
        · cases hnone
        · refine ⟨⟨hm.generate _ h.1, fun a ha => ?_⟩, member⟩
          rcases Array.mem_or_eq_of_mem_setIfInBounds ha with ha | rfl
          · exact h.2 a ha
          · exact hm.good _ a h.1 hsome.symm

theorem emit_sound (hm : m.Yields inv good) (unique : Bool) (quota : Float) {e : Expand σ α}
    (h : Sound inv good e.wrapped.source e.pool) :
    Sound inv good (emit m unique quota e).2.wrapped.source (emit m unique quota e).2.pool ∧
      ∀ v, (emit m unique quota e).1 = .ok (some v) → good v := by
  have hfilled := (refill_reads (reads_sound hm) h).1
  unfold emit
  rcases hrefill : refill m e with ⟨fault | _, w, pool, capacity, depleted, rng⟩
  all_goals rw [hrefill] at hfilled
  · exact ⟨hfilled, nofun⟩
  · dsimp only
    split
    · exact ⟨hfilled, nofun⟩
    · cases rng with
      | none => exact ⟨hfilled, nofun⟩
      | some rng =>
        dsimp only
        split
        · exact handOut_sound hm true _ false hfilled
        · exact handOut_sound hm false _ _ hfilled

/-- **A pool of good values hands out good values.** -/
theorem machine_yields (hm : m.Yields inv good) (unique : Bool) (quota : Float) :
    (machine m unique quota).Yields (fun e => Sound inv good e.wrapped.source e.pool) good where
  init := by
    intro context e streams h
    obtain ⟨answer, hopens, hpool⟩ := init_cases (m := m) unique quota context e streams
    have hsource := hopens.keeps hm.toKeeps h.1
    rcases hpool with hpool | ⟨-, hpool⟩
    · rw [hpool]; exact .empty hsource
    · rw [hpool]; exact ⟨hsource, h.2⟩
  generate := by
    intro e h
    rcases generate_cases m unique quota e with ⟨-, hstate⟩ | ⟨-, hemit⟩
    · rw [hstate]; exact h
    · rw [hemit]; exact (emit_sound hm unique quota h).1
  reset := by
    intro e streams h
    obtain ⟨answer, hrestarts, hpool⟩ := reset_cases (m := m) unique quota e streams
    have hsource := hrestarts.keeps hm.toKeeps h.1
    rcases hpool with hpool | ⟨-, hpool⟩
    · rw [hpool]; exact .empty hsource
    · rw [hpool]; exact ⟨hsource, h.2⟩
  close := fun e h => .empty (hm.close e.wrapped.source h.1)
  good := by
    intro e v h hv
    rcases generate_cases m unique quota e with ⟨⟨fault, hfault⟩, -⟩ | ⟨-, hemit⟩
    · rw [hfault] at hv
      cases hv
    · rw [hemit] at hv
      exact (emit_sound hm unique quota h).2 v hv

/-! ## Values used up -/

variable {pending : σ → α → Prop}

/-- A value may still come: it waits in the pool or is pending in the source. -/
def Waits (pending : σ → α → Prop) (s : σ) (pool : Array α) (a : α) : Prop :=
  a ∈ pool ∨ pending s a

/-- No value waits at two places. -/
structure Apart (inv : σ → Prop) (pending : σ → α → Prop) (s : σ) (pool : Array α) : Prop where
  source : inv s
  nodup : pool.toList.Nodup
  apart : ∀ a ∈ pool, ¬ pending s a

theorem Apart.empty {s : σ} (hs : inv s) : Apart inv pending s #[] :=
  ⟨hs, List.nodup_nil, fun a ha => absurd ha (Array.not_mem_empty a)⟩

theorem reads_apart (hm : m.Spends inv pending) : Reads m (Apart inv pending) where
  pushed := by
    intro s pool v h hv
    obtain ⟨hpending, hgone⟩ := hm.spent s v h.source hv
    refine ⟨hm.generate s h.source, ?_, fun a ha => ?_⟩
    · rw [Array.toList_push]
      refine (List.perm_append_singleton v pool.toList).nodup_iff.mpr ?_
      exact List.nodup_cons.mpr
        ⟨fun hmem => h.apart v (Array.mem_toList_iff.mp hmem) hpending, h.nodup⟩
    · rcases Array.mem_push.mp ha with ha | rfl
      · exact fun hp => h.apart a ha (hm.generate_pending s a h.source hp)
      · exact hgone
  dropped := fun s _ h => ⟨hm.generate s h.source, h.nodup,
    fun a ha hp => h.apart a ha (hm.generate_pending s a h.source hp)⟩

/-- Reading makes no value wait that did not wait before. -/
theorem reads_waits (hm : m.Spends inv pending) (Q : α → Prop) :
    Reads m (fun s pool => inv s ∧ ∀ a, Waits pending s pool a → Q a) where
  pushed := by
    rintro s pool v ⟨hs, hwaits⟩ hv
    refine ⟨hm.generate s hs, fun a ha => ?_⟩
    rcases ha with ha | hp
    · rcases Array.mem_push.mp ha with ha | rfl
      · exact hwaits a (Or.inl ha)
      · exact hwaits a (Or.inr (hm.spent s a hs hv).1)
    · exact hwaits a (Or.inr (hm.generate_pending s a hs hp))
  dropped := by
    rintro s pool ⟨hs, hwaits⟩
    exact ⟨hm.generate s hs, fun a ha =>
      hwaits a (ha.imp_right (hm.generate_pending s a hs))⟩

/-- Without repetitions, a running expander fills its pool; then it has nothing
to hand out, or a member of the pool leaves it. -/
theorem emit_unique (m : Machine σ α) (quota : Float) (e : Expand σ α) :
    ((∀ v, (emit m true quota e).1 ≠ .ok (some v)) ∧
        (emit m true quota e).2 = (refill m e).2) ∨
      ∃ index v rng, (refill m e).2.pool[index]? = some v ∧
        (emit m true quota e).1 = .ok (some v) ∧
        (emit m true quota e).2 =
          { (refill m e).2 with pool := takeOut (refill m e).2.pool index, rng := rng } := by
  unfold emit
  rcases refill m e with ⟨fault | _, w, pool, capacity, depleted, rng⟩
  · exact Or.inl ⟨nofun, rfl⟩
  · cases hempty : pool.isEmpty with
    | true => exact Or.inl ⟨by simp [hempty], by simp [hempty]⟩
    | false =>
      have hsize : 0 < pool.size := Nat.pos_of_ne_zero (by simpa using hempty)
      cases rng with
      | none => exact Or.inl ⟨by simp [hempty], by simp [hempty]⟩
      | some rng =>
        have hindex : (rng.below pool.size).1 < pool.size := rng.below_lt hsize
        exact Or.inr ⟨(rng.below pool.size).1, pool[(rng.below pool.size).1],
          some (rng.below pool.size).2, by simp, by simp [hempty, handOut],
          by simp [hempty, handOut]⟩

/-- The invariant of an expander without repetitions: before it has been
initialized, its pool is empty. -/
structure Fresh (inv : σ → Prop) (pending : σ → α → Prop) (w : Wrapped σ) (pool : Array α) : Prop
    extends Apart inv pending w.source pool where
  unopened : w.phase = .created → pool = #[]

theorem Fresh.empty {w : Wrapped σ} (hw : inv w.source) : Fresh inv pending w #[] :=
  ⟨.empty hw, fun _ => rfl⟩

/-- What a running expander does keeps its invariant and uses its answer up. -/
theorem emit_spends (hm : m.Spends inv pending) (quota : Float) {e : Expand σ α}
    (he : Fresh inv pending e.wrapped e.pool) (running : e.wrapped.phase = .running) :
    let e' := (emit m true quota e).2
    Fresh inv pending e'.wrapped e'.pool ∧
      (∀ v, (emit m true quota e).1 = .ok (some v) →
        Waits pending e.wrapped.source e.pool v ∧ ¬ Waits pending e'.wrapped.source e'.pool v) ∧
      ∀ a, Waits pending e'.wrapped.source e'.pool a → Waits pending e.wrapped.source e.pool a := by
  obtain ⟨hapart, hphase⟩ := refill_reads (reads_apart hm) he.toApart
  have hwaits := (refill_reads (reads_waits hm (Waits pending e.wrapped.source e.pool))
    (e := e) ⟨he.source, fun _ ha => ha⟩).1.2
  have hopened : (refill m e).2.wrapped.phase ≠ .created := by rw [hphase, running]; nofun
  dsimp only
  rcases emit_unique m quota e with ⟨hnone, hstate⟩ | ⟨index, v, rng, hv, hanswer, hstate⟩
  · rw [hstate]
    exact ⟨⟨hapart, fun h => absurd h hopened⟩, fun v h => absurd h (hnone v), hwaits⟩
  · -- the pool has the member only once, and the source will not give it again
    have hperm := takeOut_perm hv
    obtain ⟨hgone, hnodup⟩ := List.nodup_cons.mp (hperm.nodup_iff.mpr hapart.nodup)
    have hmem : v ∈ (refill m e).2.pool := Array.mem_of_getElem? hv
    rw [hstate, hanswer]
    refine ⟨⟨⟨hapart.source, hnodup, fun a ha => hapart.apart a (mem_of_mem_takeOut ha)⟩,
      fun h => absurd h hopened⟩, fun w hw => ?_, fun a ha => ?_⟩
    · obtain rfl := Option.some.inj (Except.ok.inj hw)
      refine ⟨hwaits v (Or.inl hmem), ?_⟩
      rintro (hleft | hp)
      · exact hgone (Array.mem_toList_iff.mpr hleft)
      · exact hapart.apart v hmem hp
    · exact hwaits a (ha.imp_left mem_of_mem_takeOut)

/-- **A pool without repetitions hands out no value twice**, if its source does
not. -/
theorem machine_spends (hm : m.Spends inv pending) (hsteady : m.Steady) (quota : Float) :
    (machine m true quota).Spends (fun e => Fresh inv pending e.wrapped e.pool)
      (fun e a => Waits pending e.wrapped.source e.pool a) where
  init := by
    intro context e streams he
    obtain ⟨answer, hopens, hpool⟩ := init_cases (m := m) true quota context e streams
    have hsource := hopens.keeps hm.toKeeps he.source
    rcases hpool with hpool | ⟨⟨fault, rfl⟩, hpool⟩
    · rw [hpool]
      exact .empty hsource
    · -- the pool is kept after a failure, when it was empty or nothing else has changed
      rw [hpool]
      generalize ((machine m true quota).init context e streams).2.1.wrapped = w at *
      cases hopens with
      | refused _ _ => exact he
      | failed _ _ _ phase _ =>
        rw [he.unopened phase]
        exact .empty hsource
  generate := by
    intro e he
    rcases generate_cases m true quota e with ⟨-, h⟩ | ⟨running, h⟩
    · rw [h]; exact he
    · rw [h]; exact (emit_spends hm quota he running).1
  reset := by
    intro e streams he
    obtain ⟨answer, hrestarts, hpool⟩ := reset_cases (m := m) true quota e streams
    have hsource := hrestarts.keeps hm.toKeeps he.source
    rcases hpool with hpool | ⟨hanswer, hpool⟩
    · rw [hpool]
      exact .empty hsource
    · rw [hpool]
      generalize ((machine m true quota).reset e streams).2.1.wrapped = w at *
      cases hrestarts with
      | refused _ _ => exact he
      | unopened _ _ phase _ =>
        rw [he.unopened phase]
        exact .empty hsource
      | opened _ phase _ =>
        rw [he.unopened phase]
        exact .empty hsource
      | failed streams fault _ hfault =>
        -- the pool stays, next to a source that has not changed
        rw [hsteady e.wrapped.source streams fault hfault]
        exact he
      | restarted _ _ _ => exact absurd rfl hanswer
  close := fun e he => .empty (hm.close e.wrapped.source he.source)
  spent := by
    intro e v he h
    rcases generate_cases m true quota e with ⟨⟨fault, hfault⟩, -⟩ | ⟨running, hemit⟩
    · rw [hfault] at h
      cases h
    · rw [hemit] at h ⊢
      exact (emit_spends hm quota he running).2.1 v h
  generate_pending := by
    intro e a he ha
    rcases generate_cases m true quota e with ⟨-, h⟩ | ⟨running, h⟩
    · rwa [h] at ha
    · rw [h] at ha
      exact (emit_spends hm quota he running).2.2 a ha
  close_pending := by
    rintro e a he (ha | hp)
    · exact absurd ha (Array.not_mem_empty a)
    · exact Or.inr (hm.close_pending e.wrapped.source a he.source hp)

end SynthData.Expand
