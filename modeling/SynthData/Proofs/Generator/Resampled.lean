import Mathlib.Data.List.Perm.Subperm
import SynthData.Proofs.Generator.Completeness
import SynthData.Proofs.Generator.Emitted
import SynthData.Proofs.Grid.Floor

/-!
# What a pool repeats

A pass with repetitions fills its pool once.  From then on the pool keeps its size: a member that
is handed out stays, or the next value of the source takes its place (`Filled.emitAt`).  So a pass
with members never runs out, and what it hands out has been read in this pass.

No value of the source is in the pool at two places.  A member that had to make room has been read
and is not in the pool, and as only what is new comes into the pool, it does not come back
(`Filled.after`).  That is the reason why no position of the source is handed out again after a
call that replaced it (`Resamples.once`).
-/
namespace SynthData

/-! ## Quotas -/

/-- A draw of a double takes the upper 53 bits of a word. -/
theorem Rng.reads_unit (rng : Rng) :
    Binary64.Reads rng.unit.1 ((rng.next.1 >>> 11).toNat / 2 ^ 53) := by
  have hshift : (rng.next.1 >>> 11).toNat = rng.next.1.toNat / 2 ^ 11 := by
    rw [UInt64.toNat_shiftRight, Nat.shiftRight_eq_div_pow]
    rfl
  have hlt : (rng.next.1 >>> 11).toNat < 2 ^ 53 := by
    rw [hshift]
    exact Nat.div_lt_of_lt_mul rng.next.1.toNat_lt
  generalize hn : (rng.next.1 >>> 11).toNat = n at hlt
  have hword := reads_word (rng.next.1 >>> 11)
  rw [hn, ← Int.cast_natCast, Binary64.rounded_intCast (by rw [Nat.abs_cast]; omega)] at hword
  have hscale : Binary64.Reads 9007199254740992 (2 ^ 53) :=
    Binary64.reads_of_unpack (m := 2 ^ 52) (e := 1) rfl (by norm_num)
  have hbits : Binary64.HasBits (((n : ℤ) : ℚ) / 2 ^ 53) := by
    refine ⟨n, -53, by rw [Nat.abs_cast]; omega, by omega, ?_⟩
    rw [div_eq_mul_inv, zpow_neg]
    norm_num
  have hdiv := hword.div hscale (by norm_num) (abs_rounded_lt_limit ?_)
  · rwa [hbits.rounded] at hdiv
  · have hle : ((n : ℤ) : ℚ) ≤ 2 ^ 53 := by exact_mod_cast hlt.le
    have hnonneg : (0 : ℚ) ≤ (n : ℤ) := by exact_mod_cast n.zero_le
    rw [abs_of_nonneg (by positivity)]
    linarith

namespace Expand

/-- With a quota of zero nothing is kept. -/
theorem keep_drawOf_zero (rng : Rng) (size : Nat) : (drawOf 0 rng).keep size = false := by
  refine decide_eq_false ?_
  rw [(rng.below size).2.reads_unit.lt_iff Binary64.reads_zero, not_lt]
  positivity

variable {σ α : Type} {m : Machine σ α} {s : σ} {size asked : Nat} {e : Expand σ α}

/-! ## Sources that do not fail -/

/-- No answer of a source is a failure. -/
def Unfailing (m : Machine σ α) (s : σ) : Prop := ∀ n fault, m.answer n s ≠ .error fault

theorem Unfailing.pull (hm : Unfailing m s) {depleted : Bool} {w : Wrapped σ}
    (h : Asked m s asked depleted w.source) : ∃ value, (pull m depleted w).1 = .ok value := by
  obtain ⟨hnone, -⟩ | ⟨hanswer, -⟩ := pull_cases m depleted w
  · exact ⟨none, hnone⟩
  · cases hd : depleted with
    | true => exact ⟨none, rfl⟩
    | false =>
      rw [hd] at h hanswer
      have hanswer' : (Expand.pull m false w).1 = m.answer asked s := by
        rw [hanswer, h.now_eq]
        rfl
      rw [hanswer']
      rcases hresult : m.answer asked s with fault | value
      · exact absurd hresult (hm asked fault)
      · exact ⟨value, rfl⟩

theorem Unfailing.fill (hm : Unfailing m s) {depleted : Bool} {w : Wrapped σ}
    (h : Asked m s asked depleted w.source) (room : Nat) (pool : Array α) :
    (fill m room pool depleted w).1 = .ok () := by
  induction room generalizing pool depleted w asked with
  | zero => rfl
  | succ room ih =>
    obtain ⟨value, hvalue⟩ := hm.pull h
    obtain ⟨asked', hasked, -⟩ := pull_asked h
    rcases hpull : Expand.pull m depleted w with ⟨fault | _ | v, w', depleted'⟩
    all_goals
      rw [hpull] at hvalue hasked
      simp only [Expand.fill, hpull]
    · cases hvalue
    · exact ih hasked (pool.push v)

/-! ## Pools that have been filled -/

/-- A pool that is full, or whose source has run out: what is in it has been read, each value
once. -/
structure Filled (m : Machine σ α) (s : σ) (size asked : Nat) (e : Expand σ α) : Prop where
  capacity_eq : e.capacity = some size
  reading : Asked m s asked e.depleted e.wrapped.source
  members : e.pool.toList.Subperm (m.stream asked s)
  full : size ≤ e.pool.size ∨ e.depleted = true

theorem pull_depleted (m : Machine σ α) (w : Wrapped σ) : pull m true w = (.ok none, w, true) := rfl

/-- Such a pool is not filled again. -/
theorem Filled.refill (h : Filled m s size asked e) : Expand.refill m e = (.ok (), e) := by
  obtain ⟨w, pool, capacity, depleted, rng⟩ := e
  obtain rfl : capacity = some size := h.capacity_eq
  unfold Expand.refill
  dsimp only [Option.getD_some]
  rcases hroom : size - pool.size with _ | room
  · rfl
  · obtain hfull | rfl := h.full
    · exact absurd hfull (by dsimp only; omega)
    · rw [fill, pull_depleted]

/-- **The pool is filled at the first call**, unless the source has no values. -/
theorem Begun.filled (he : Begun size e) (hm : Unfailing m e.wrapped.source) :
    (Expand.refill m e).1 = .ok () ∧
      (∃ asked, Filled m e.wrapped.source size asked (Expand.refill m e).2) ∧
      (Expand.refill m e).2.pool.size ≤ size ∧
      ((Expand.refill m e).2.pool = #[] ↔ m.answer 0 e.wrapped.source = .ok none) := by
  have hstart : Asked m e.wrapped.source 0 e.depleted e.wrapped.source := he.course.reading
  have hok : (Expand.refill m e).1 = .ok () := hm.fill hstart _ e.pool
  obtain ⟨asked, read, hasked, hpool, hstream, hroom, hresult⟩ := refill_asked hstart
  have hstream : m.stream asked e.wrapped.source = read := hstream
  rw [he.pool_eq] at hpool
  have hpool : (Expand.refill m e).2.pool.toList = read := hpool
  have hsize : (Expand.refill m e).2.pool.size = read.length := by
    rw [← hpool, Array.length_toList]
  rw [he.capacity_eq, he.pool_eq, Option.getD_some, Array.size_empty, Nat.sub_zero] at hroom hresult
  obtain ⟨-, hcount, hend⟩ : _ ∧ asked = 0 + read.length ∧ _ :=
    hresult.resolve_right fun h => h.1 hok
  refine ⟨hok, ⟨asked, he.capacity_eq, hasked, ?_, ?_⟩, hsize ▸ hroom, ?_⟩
  · rw [hpool, hstream]
  · exact hend.imp_left fun h => by rw [hsize, h]
  · rw [← Array.size_eq_zero_iff, hsize]
    constructor
    · intro hnil
      have hd := hend.resolve_left (by have := he.size_pos; omega)
      have hnone := hasked.known hd
      rwa [hcount, hnil] at hnone
    · intro hnone
      have := hasked.le hnone
      omega

/-- What a call makes of a pool that has been filled. -/
inductive Turns (m : Machine σ α) (s : σ) (asked : Nat) (d : Draw) (e : Expand σ α) :
    Nat → Expand σ α → Prop
  /-- The member stays. -/
  | stays {e' : Expand σ α} (pool : e'.pool = e.pool)
      (why : e.pool = #[] ∨ d.keep e.pool.size = true ∨ e'.depleted = true) :
      Turns m s asked d e asked e'
  /-- The next value of the source takes its place. -/
  | replaced {e' : Expand σ α} (fresh : α)
      (pool : e'.pool = e.pool.setIfInBounds (d.place e.pool.size) fresh)
      (stream : m.stream (asked + 1) s = m.stream asked s ++ [fresh]) :
      Turns m s asked d e (asked + 1) e'

/-- A value that takes the place of another one leaves each value in the pool at one place. -/
theorem subperm_set {pool stream : List α} {index : Nat} {fresh : α} (h : pool.Subperm stream)
    (hindex : index < pool.length) : (pool.set index fresh).Subperm (stream ++ [fresh]) := by
  have hrest : (pool.eraseIdx index).Subperm stream :=
    (List.eraseIdx_sublist pool index).subperm.trans h
  refine (List.set_perm_cons_eraseIdx hindex fresh).subperm.trans ?_
  exact ((List.subperm_cons fresh).mpr hrest).trans (List.perm_append_singleton fresh stream).symm.subperm

/-- A call of a pool that has been filled only draws. -/
theorem Filled.emitAt_eq (h : Filled m s size asked e) (d : Draw) :
    Expand.emitAt m false d e =
      if e.pool.isEmpty then (.ok none, e)
      else handOut m false (d.place e.pool.size) (d.keep e.pool.size) e := by
  rw [Expand.emitAt, h.refill]

/-- **One call of a pool that has been filled** hands out a member, keeps the size of the pool and
reads one value at most. -/
theorem Filled.emitAt (h : Filled m s size asked e) (hm : Unfailing m s) (d : Draw) :
    (Expand.emitAt m false d e).1 = .ok e.pool[d.place e.pool.size]? ∧
      ∃ asked', Filled m s size asked' (Expand.emitAt m false d e).2 ∧
        Turns m s asked d e asked' (Expand.emitAt m false d e).2 := by
  rw [h.emitAt_eq]
  by_cases hempty : e.pool = #[]
  · rw [if_pos (by simp [hempty])]
    exact ⟨by simp [hempty], asked, h, .stays rfl (Or.inl hempty)⟩
  · rw [if_neg (by simpa using hempty)]
    have hindex := d.place_lt e.pool.size (Array.size_pos_iff.mpr hempty)
    cases hkeep : d.keep e.pool.size with
    | true => exact ⟨rfl, asked, h, .stays rfl (Or.inr (Or.inl hkeep))⟩
    | false =>
      obtain ⟨value, hvalue⟩ := hm.pull h.reading
      obtain ⟨asked', hasked, hstream, hcases⟩ := pull_asked h.reading
      obtain ⟨w, pool, capacity, depleted, rng⟩ := e
      rcases hpull : pull m depleted w with ⟨fault | _ | v, w', depleted'⟩
      all_goals
        rw [hpull] at hvalue hasked hstream hcases
        simp only [handOut, hpull]
      · cases hvalue
      · obtain ⟨-, rfl, hd⟩ | ⟨hsome, -⟩ := hcases
        · exact ⟨rfl, asked', ⟨h.capacity_eq, hasked, h.members, Or.inr hd⟩,
            .stays rfl (Or.inr (Or.inr hd))⟩
        · exact absurd rfl hsome
      · obtain ⟨hnone, -⟩ | ⟨-, rfl, -⟩ := hcases
        · cases hnone
        · have hfull : size ≤ pool.size := by
            refine h.full.resolve_right fun hd => ?_
            obtain rfl : depleted = true := hd
            cases hpull
          refine ⟨rfl, asked + 1, ⟨h.capacity_eq, hasked, ?_, Or.inl ?_⟩, .replaced v rfl hstream⟩
          · show (pool.setIfInBounds _ v).toList.Subperm _
            rw [Array.toList_setIfInBounds, hstream]
            exact subperm_set h.members (by simpa using hindex)
          · show size ≤ (pool.setIfInBounds _ v).size
            rwa [Array.size_setIfInBounds]

/-- A source that is known to have run out stays so. -/
theorem Filled.depleted_emitAt (h : Filled m s size asked e) (d : Draw) (hd : e.depleted = true) :
    (Expand.emitAt m false d e).2.depleted = true := by
  rw [h.emitAt_eq]
  obtain ⟨w, pool, capacity, depleted, rng⟩ := e
  obtain rfl : depleted = true := hd
  split
  · rfl
  · cases hkeep : d.keep pool.size
    all_goals rfl

theorem Turns.size_eq {d : Draw} {asked' : Nat} {e' : Expand σ α} (h : Turns m s asked d e asked' e') :
    e'.pool.size = e.pool.size := by
  cases h with
  | stays pool _ => rw [pool]
  | replaced fresh pool _ => rw [pool, Array.size_setIfInBounds]

theorem Turns.stream_subset {d : Draw} {asked' : Nat} {e' : Expand σ α}
    (h : Turns m s asked d e asked' e') : m.stream asked s ⊆ m.stream asked' s := by
  cases h with
  | stays pool _ => exact List.Subset.refl _
  | replaced fresh _ stream => rw [stream]; exact List.subset_append_left _ _

/-- **A pool that has been filled stays so, and keeps its size.** -/
theorem Filled.after (h : Filled m s size asked e) (hm : Unfailing m s) (draws : Nat → Draw)
    (k : Nat) :
    ∃ asked', Filled m s size asked' (afterDraws m false draws e k) ∧
      (afterDraws m false draws e k).pool.size = e.pool.size := by
  induction k with
  | zero => exact ⟨asked, h, rfl⟩
  | succ k ih =>
    obtain ⟨asked', hfilled, hsize⟩ := ih
    obtain ⟨-, asked'', hfilled', hturns⟩ := hfilled.emitAt hm (draws k)
    exact ⟨asked'', hfilled', hturns.size_eq.trans hsize⟩

/-- Every call hands out a member of the pool, if it has some. -/
theorem Filled.answer (h : Filled m s size asked e) (hm : Unfailing m s) (draws : Nat → Draw)
    (k : Nat) :
    answerDraws m false draws e k =
      .ok (afterDraws m false draws e k).pool[(draws k).place e.pool.size]? := by
  obtain ⟨asked', hfilled, hsize⟩ := h.after hm draws k
  rw [answerDraws, (hfilled.emitAt hm (draws k)).1, hsize]

/-! ## Values that do not come back -/

section Nodup

variable (hnodup : ∀ n, (m.stream n s).Nodup)
include hnodup

theorem Filled.pool_nodup (h : Filled m s size asked e) : e.pool.toList.Nodup := by
  obtain ⟨part, hperm, hsublist⟩ := h.members
  exact hperm.nodup_iff.mp ((hnodup asked).sublist hsublist)

/-- Only what is new comes into the pool. -/
theorem Turns.not_mem {d : Draw} {asked' : Nat} {e' : Expand σ α}
    (h : Turns m s asked d e asked' e') {v : α} (hread : v ∈ m.stream asked s) (hv : v ∉ e.pool) :
    v ∈ m.stream asked' s ∧ v ∉ e'.pool := by
  cases h with
  | stays pool _ => exact ⟨hread, pool ▸ hv⟩
  | replaced fresh pool stream =>
    refine ⟨stream ▸ List.mem_append_left _ hread, ?_⟩
    have hnew := hnodup (asked + 1)
    rw [stream, List.nodup_append] at hnew
    intro hmem
    rw [pool] at hmem
    rcases Array.mem_or_eq_of_mem_setIfInBounds hmem with hold | rfl
    · exact hv hold
    · exact hnew.2.2 v hread v List.mem_cons_self rfl

/-- A member that has made room for the next value is not in the pool any more. -/
theorem Filled.not_mem_of_replaced (h : Filled m s size asked e) {index : Nat} {v fresh : α}
    (hv : e.pool[index]? = some v)
    (hstream : m.stream (asked + 1) s = m.stream asked s ++ [fresh]) :
    v ∈ m.stream asked s ∧ v ∉ e.pool.setIfInBounds index fresh := by
  rw [← Array.getElem?_toList] at hv
  have hread : v ∈ m.stream asked s := h.members.subset (List.mem_of_getElem? hv)
  refine ⟨hread, ?_⟩
  obtain ⟨hindex, rfl⟩ := List.getElem?_eq_some_iff.mp hv
  have hnew := hnodup (asked + 1)
  rw [hstream, List.nodup_append] at hnew
  have honce := (List.getElem_cons_eraseIdx_perm hindex).nodup_iff.mpr (h.pool_nodup hnodup)
  rw [← Array.mem_toList_iff, Array.toList_setIfInBounds,
    (List.set_perm_cons_eraseIdx hindex fresh).mem_iff, List.mem_cons, not_or]
  exact ⟨hnew.2.2 _ hread _ List.mem_cons_self, (List.nodup_cons.mp honce).1⟩

end Nodup

/-- A value that has been read and is not in the pool. -/
def Spent (m : Machine σ α) (s : σ) (size : Nat) (v : α) (e : Expand σ α) : Prop :=
  ∃ asked, Filled m s size asked e ∧ v ∈ m.stream asked s ∧ v ∉ e.pool

/-- **What is spent does not come back.** -/
theorem Spent.after {v : α} {draws : Nat → Draw} {j k : Nat}
    (h : Spent m s size v (afterDraws m false draws e j)) (hm : Unfailing m s)
    (hnodup : ∀ n, (m.stream n s).Nodup) (hle : j ≤ k) :
    Spent m s size v (afterDraws m false draws e k) := by
  induction k, hle using Nat.le_induction with
  | base => exact h
  | succ k _ ih =>
    obtain ⟨asked, hfilled, hread, hv⟩ := ih
    obtain ⟨-, asked', hfilled', hturns⟩ := hfilled.emitAt hm (draws k)
    exact ⟨asked', hfilled', hturns.not_mem hnodup hread hv⟩

/-- A call that hands out a member without keeping it spends it, unless the source runs out. -/
theorem Filled.spends (h : Filled m s size asked e) (hm : Unfailing m s)
    (hnodup : ∀ n, (m.stream n s).Nodup) {d : Draw} {v : α}
    (hv : (Expand.emitAt m false d e).1 = .ok (some v)) (hkeep : d.keep e.pool.size = false)
    (hmore : (Expand.emitAt m false d e).2.depleted = false) :
    Spent m s size v (Expand.emitAt m false d e).2 := by
  obtain ⟨hanswer, asked', hfilled, hturns⟩ := h.emitAt hm d
  have hmember : e.pool[d.place e.pool.size]? = some v := Except.ok.inj (hanswer.symm.trans hv)
  cases hturns with
  | stays pool why =>
    obtain hempty | hkept | hended := why
    · rw [hempty] at hmember
      cases hmember
    · rw [hkept] at hkeep
      cases hkeep
    · rw [hended] at hmore
      cases hmore
  | replaced fresh pool stream =>
    have hspent := h.not_mem_of_replaced hnodup hmember stream
    rw [← pool] at hspent
    exact ⟨asked + 1, hfilled, stream ▸ List.mem_append_left _ hspent.1, hspent.2⟩

/-! ## Passes from their beginning -/

section Begun

variable (he : Begun size e) (hm : Unfailing m e.wrapped.source)
include he hm

/-- The first call of a pass fills the pool, and then goes on as with a pool that has been filled. -/
theorem Begun.emitAt_refill (d : Draw) :
    Expand.emitAt m false d e = Expand.emitAt m false d (Expand.refill m e).2 := by
  obtain ⟨hok, ⟨asked, hfilled⟩, -⟩ := he.filled hm
  rw [Expand.emitAt, Expand.emitAt, hfilled.refill]
  rcases h : Expand.refill m e with ⟨fault | _, e'⟩
  · rw [h] at hok
    cases hok
  · rfl

theorem Begun.afterDraws_refill (draws : Nat → Draw) (k : Nat) :
    afterDraws m false draws e (k + 1) =
      afterDraws m false draws (Expand.refill m e).2 (k + 1) := by
  induction k with
  | zero => exact congrArg Prod.snd (he.emitAt_refill hm (draws 0))
  | succ k ih => rw [afterDraws, ih, ← afterDraws]

theorem Begun.answerDraws_refill (draws : Nat → Draw) (k : Nat) :
    answerDraws m false draws e k = answerDraws m false draws (Expand.refill m e).2 k := by
  cases k with
  | zero => exact congrArg Prod.fst (he.emitAt_refill hm (draws 0))
  | succ k => rw [answerDraws, answerDraws, he.afterDraws_refill hm]

end Begun

/-! ## Sources whose values carry their positions -/

theorem Unfailing.numbered (hm : Unfailing m s) : Unfailing m.numbered (s, 0) := by
  intro n fault h
  rw [m.answer_numbered] at h
  rcases hanswer : m.answer n s with fault' | value
  · exact hm n fault' hanswer
  · rw [hanswer] at h
    cases h

theorem nodup_stream_numbered (m : Machine σ α) (s : σ) (n : Nat) :
    (m.numbered.stream n (s, 0)).Nodup := by
  rw [m.stream_numbered]
  refine List.Nodup.of_map Prod.snd ?_
  rw [List.zipIdx_map_snd]
  exact List.nodup_range'

/-- How far the source has been asked does not depend on the positions. -/
theorem Asked.plain {depleted : Bool} {now : σ × Nat}
    (h : Asked m.numbered (s, 0) asked depleted now) : Asked m s asked depleted now.1 where
  now_eq := by rw [h.now_eq, m.after_numbered]
  before := by
    intro j hj hnone
    refine h.before j hj ?_
    rw [m.answer_numbered, hnone]
    rfl
  known := by
    intro hd
    have hnone := h.known hd
    rw [m.answer_numbered] at hnone
    rcases hanswer : m.answer asked s with fault | _ | v
    · rw [hanswer] at hnone
      cases hnone
    · rfl
    · rw [hanswer] at hnone
      cases hnone

/-- **What a pass with repetitions makes of its source**, if the source does not fail and the pass
draws what is given.  The values are handed out by their positions in the source. -/
structure Resamples (m : Machine σ α) (size : Nat) (draws : Nat → Draw) (e : Expand σ α) :
    Prop where
  /-- Positions are carried along, and make no difference. -/
  values : ∀ k, answerDraws m false draws e k =
    (answerDraws m.numbered false draws e.numbered k).map (Option.map Prod.fst)
  /-- What is handed out has been read from the source in this pass. -/
  read : ∀ k v p, answerDraws m.numbered false draws e.numbered k = .ok (some (v, p)) →
    ∃ asked, Asked m e.wrapped.source asked (afterDraws m false draws e (k + 1)).depleted
        (afterDraws m false draws e (k + 1)).wrapped.source ∧
      (m.stream asked e.wrapped.source)[p]? = some v
  /-- The pool has no more than `size` values, and keeps the size of its first filling. -/
  room : (refill m e).2.pool.size ≤ size ∧
    ∀ k, (afterDraws m false draws e (k + 1)).pool.size = (refill m e).2.pool.size
  /-- Every call has a value, unless the source has none. -/
  lasts : ∀ k, (∃ value, answerDraws m false draws e k = .ok value) ∧
    (answerDraws m false draws e k = .ok none ↔ m.answer 0 e.wrapped.source = .ok none)
  /-- A position does not come back if it was not to be kept when it was handed out, and the source
  was not known to have run out then. -/
  once : ∀ j k v v' p, j < k →
    answerDraws m.numbered false draws e.numbered j = .ok (some (v, p)) →
    (draws j).keep (refill m e).2.pool.size = false →
    (afterDraws m false draws e (j + 1)).depleted = false →
    answerDraws m.numbered false draws e.numbered k ≠ .ok (some (v', p))
  /-- As long as nothing is kept and the source is not known to have run out, no position is handed
  out twice. -/
  fresh : ∀ k, (∀ j < k, (draws j).keep (refill m e).2.pool.size = false) →
    (afterDraws m false draws e k).depleted = false →
    ((streamDraws m.numbered false draws e.numbered k).map Prod.snd).Nodup

section Pass

variable (he : Begun size e) (hm : Unfailing m e.wrapped.source) (draws : Nat → Draw)
include he

theorem Begun.refill_numbered :
    refill m e = ((refill m.numbered e.numbered).1,
      (refill m.numbered e.numbered).2.project Prod.fst Prod.fst) := by
  rw [← refill_project m.projects_numbered, he.project_numbered]

theorem Begun.after_numbered (k : Nat) :
    afterDraws m false draws e k =
      (afterDraws m.numbered false draws e.numbered k).project Prod.fst Prod.fst := by
  rw [← afterDraws_project m.projects_numbered, he.project_numbered]

theorem Begun.answer_numbered (k : Nat) :
    answerDraws m false draws e k =
      (answerDraws m.numbered false draws e.numbered k).map (Option.map Prod.fst) := by
  rw [answerDraws, he.after_numbered, emitAt_project m.projects_numbered, answerDraws]

include hm

/-- The pool with the positions has been filled, too. -/
theorem Begun.filled_numbered :
    (∃ asked, Filled m.numbered (e.wrapped.source, 0) size asked
      (refill m.numbered e.numbered).2) ∧
      (refill m.numbered e.numbered).2.pool.size = (refill m e).2.pool.size := by
  obtain ⟨-, hfilled, -⟩ := he.numbered.filled hm.numbered
  refine ⟨hfilled, ?_⟩
  rw [he.refill_numbered]
  exact Array.size_map.symm

/-- **A position that was not to be kept does not come back**, unless the source had run out. -/
theorem Begun.once {j k : Nat} {v v' : α} {p : Nat} (hlt : j < k)
    (hv : answerDraws m.numbered false draws e.numbered j = .ok (some (v, p)))
    (hkeep : (draws j).keep (refill m e).2.pool.size = false)
    (hmore : (afterDraws m false draws e (j + 1)).depleted = false) :
    answerDraws m.numbered false draws e.numbered k ≠ .ok (some (v', p)) := by
  have hM := hm.numbered
  obtain ⟨⟨asked, hfilled⟩, hsize⟩ := he.filled_numbered hm
  rw [he.after_numbered, he.numbered.afterDraws_refill hM] at hmore
  rw [he.numbered.answerDraws_refill hM] at hv ⊢
  obtain ⟨asked', hfilled', hsize'⟩ := hfilled.after hM draws j
  rw [← hsize, ← hsize'] at hkeep
  have hspent := hfilled'.spends hM (nodup_stream_numbered m _) hv hkeep hmore
  obtain ⟨asked'', hfilled'', hread, hgone⟩ :=
    Spent.after (j := j + 1) hspent hM (nodup_stream_numbered m _) hlt
  intro hv'
  rw [hfilled.answer hM] at hv'
  have hmember := Array.mem_of_getElem? (Except.ok.inj hv')
  have hread' := hfilled''.members.subset (Array.mem_toList_iff.mpr hmember)
  -- a position has one value
  rw [m.stream_numbered, List.mk_mem_zipIdx_iff_getElem?] at hread hread'
  obtain rfl : v = v' := Option.some.inj (hread.symm.trans hread')
  exact hgone hmember

theorem Begun.depleted_mono {j k : Nat} (hle : j ≤ k)
    (hmore : (afterDraws m false draws e k).depleted = false) :
    (afterDraws m false draws e j).depleted = false := by
  obtain ⟨-, ⟨asked, hfilled⟩, -⟩ := he.filled hm
  induction k, hle using Nat.le_induction with
  | base => exact hmore
  | succ k hle ih =>
    cases k with
    | zero =>
      rw [Nat.le_zero.mp hle]
      exact he.depleted_eq
    | succ k =>
      refine ih ?_
      rw [he.afterDraws_refill hm] at hmore ⊢
      obtain ⟨asked', hfilled', -⟩ := hfilled.after hm draws (k + 1)
      refine Bool.eq_false_iff.mpr fun hd => ?_
      exact Bool.eq_false_iff.mp hmore (hfilled'.depleted_emitAt (draws (k + 1)) hd)

/-- **As long as nothing is kept and the source goes on, no position comes twice.** -/
theorem Begun.fresh {k : Nat} (hkeep : ∀ j < k, (draws j).keep (refill m e).2.pool.size = false)
    (hmore : (afterDraws m false draws e k).depleted = false) :
    ((streamDraws m.numbered false draws e.numbered k).map Prod.snd).Nodup := by
  rw [streamDraws, List.Nodup, List.pairwise_map, List.pairwise_filterMap]
  refine List.pairwise_lt_range.imp_of_mem fun {j i} hj hi hlt => ?_
  rintro ⟨v, p⟩ hv ⟨v', p'⟩ hv' rfl
  have hi : i < k := List.mem_range.mp hi
  exact he.once hm draws hlt (Machine.valueOf_eq_some.mp hv) (hkeep j (hlt.trans hi))
    (he.depleted_mono hm draws (by omega) hmore) (Machine.valueOf_eq_some.mp hv')

/-- **A pass draws from what it has read**, whatever it draws. -/
theorem Begun.resamples : Resamples m size draws e := by
  obtain ⟨-, ⟨asked, hfilled⟩, hroom, hempty⟩ := he.filled hm
  obtain ⟨⟨asked', hfilled'⟩, hsize⟩ := he.filled_numbered hm
  refine ⟨he.answer_numbered draws, ?read, ⟨hroom, ?room⟩, ?lasts,
    fun j k v v' p => he.once hm draws, fun k => he.fresh hm draws⟩
  case read =>
    intro k v p hv
    have hM := hm.numbered
    rw [he.numbered.answerDraws_refill hM] at hv
    rw [he.after_numbered, he.numbered.afterDraws_refill hM]
    obtain ⟨read, hread, -⟩ := hfilled'.after hM draws k
    obtain ⟨-, read', hread', hturns⟩ := hread.emitAt hM (draws k)
    rw [hfilled'.answer hM] at hv
    have hmember := Array.mem_of_getElem? (Except.ok.inj hv)
    have hread'' := hread.members.subset (Array.mem_toList_iff.mpr hmember)
    refine ⟨read', hread'.reading.plain, ?_⟩
    rw [← List.mk_mem_zipIdx_iff_getElem?, ← m.stream_numbered]
    exact hturns.stream_subset hread''
  case room =>
    intro k
    rw [he.afterDraws_refill hm]
    obtain ⟨-, -, hsame⟩ := hfilled.after hm draws (k + 1)
    exact hsame
  case lasts =>
    intro k
    obtain ⟨-, -, hsame⟩ := hfilled.after hm draws k
    rw [he.answerDraws_refill hm, hfilled.answer hm, ← hempty]
    refine ⟨⟨_, rfl⟩, ?_⟩
    rw [Except.ok.injEq, Array.getElem?_eq_none_iff, hsame, ← Array.size_eq_zero_iff]
    constructor
    · intro hplace
      by_contra hne
      exact absurd ((draws k).place_lt _ (Nat.pos_of_ne_zero hne)) (not_lt.mpr hplace)
    · intro hnone
      rw [hnone]
      exact Nat.zero_le _

end Pass

/-- A pass with repetitions over a source: whatever is drawn, it draws from what it has read, and the
calls of the generator are calls with draws from its stream. -/
def Resampling (m : Machine σ α) (quota : Float) (capacity : Option Nat) (source : σ)
    (e : Expand σ α) : Prop :=
  e.wrapped.source = source ∧ ∃ size, Sized capacity size ∧
    (Unfailing m source → ∀ draws, Resamples m size draws e) ∧
    ∃ rngs : Nat → Rng, (quota = 0 → ∀ j n, (drawOf quota (rngs j)).keep n = false) ∧
      ∀ k, (machine m false quota).answer k e =
          answerDraws m false (fun j => drawOf quota (rngs j)) e k ∧
        ((machine m false quota).after k e).pool =
          (afterDraws m false (fun j => drawOf quota (rngs j)) e k).pool

theorem Begins.resampling {capacity : Option Nat} {source : σ} (he : Begins capacity source e)
    (m : Machine σ α) (quota : Float) : Resampling m quota capacity source e := by
  obtain ⟨rfl, size, hsized, hbegun⟩ := he
  obtain ⟨rngs, hdraws⟩ := hbegun.draws m false quota
  refine ⟨rfl, size, hsized, fun hm draws => hbegun.resamples hm draws, rngs, ?_, ?_⟩
  · rintro rfl j n
    exact keep_drawOf_zero (rngs j) n
  · intro k
    obtain ⟨hanswer, rng, hafter⟩ := hdraws k
    exact ⟨hanswer, by rw [hafter]⟩

/-- **A pool with repetitions draws from what it has read.**  After any history of calls, a call of
`init` or `reset` that succeeds begins a pass over the source as it has left it (`Resampling`).  If
the source does not fail in this pass, what is handed out has been read in it, the pool keeps the
size of its first filling, and the values do not end if there are any.  A position of the source
that was not to be kept when it was handed out does not come back, if the source was not known to
have run out then; with a quota of zero, that is every position. -/
theorem pass_resamples (m : Machine σ α) (quota : Float) (source : σ) (capacity : Option Nat)
    (streams : Streams) (calls : List Machine.Call) :
    let expander := machine m false quota
    let r := expander.run calls (.start (new source capacity) streams)
    (∀ context, (expander.init context r.state r.streams).1 = .ok () →
      Resampling m quota capacity (m.init context r.state.wrapped.source r.streams).2.1
        (expander.init context r.state r.streams).2.1) ∧
    ((expander.reset r.state r.streams).1 = .ok () → r.state.wrapped.phase = .running →
      Resampling m quota capacity (m.reset r.state.wrapped.source r.streams).2.1
        (expander.reset r.state r.streams).2.1) ∧
    ((expander.reset r.state r.streams).1 = .ok () → r.state.wrapped.phase = .created →
      Resampling m quota capacity
        (m.init r.streams.defaultContext.1 r.state.wrapped.source
          r.streams.defaultContext.2).2.1
        (expander.reset r.state r.streams).2.1) := by
  intro expander r
  have hkept : Kept capacity r.state :=
    (keeps_kept m false quota).run (r := .start (new source capacity) streams) (.created source)
      calls
  obtain ⟨-, hrestarts, hstarts⟩ := hkept.reset m false quota r.streams
  refine ⟨?_, ?_, ?_⟩
  · intro context hok
    exact ((hkept.init m false quota context r.streams).2 hok).resampling m quota
  · intro hok hrunning
    exact (hrestarts hok hrunning).resampling m quota
  · intro hok hcreated
    exact (hstarts hok hcreated).resampling m quota

/-- Three letters and a pool for two of them, after a reset: there is a letter at every call, and
the first one does not come back if it is not kept. -/
theorem pass_resamples_threeLetters :
    let expander := machine Listed.machine false 0.5
    let r := expander.run [.init ⟨{}, 0⟩, .generate]
      (.start (new (Listed.new #['a', 'b', 'c']) (some 2)) (.start fun _ => .ofSeed 0))
    let begun := (expander.reset r.state r.streams).2.1
    (expander.reset r.state r.streams).1 = .ok () ∧ ∀ draws,
      (∀ k, ∃ c, answerDraws Listed.machine false draws begun k = .ok (some c)) ∧
      ((draws 0).keep 2 = false → ∀ c p k, 0 < k →
        answerDraws Listed.machine.numbered false draws begun.numbered 0 = .ok (some (c, p)) →
        answerDraws Listed.machine.numbered false draws begun.numbered k ≠ .ok (some (c, p))) := by
  intro expander r begun
  have hok : (expander.reset r.state r.streams).1 = .ok () := by rfl
  obtain ⟨hsource, size, hsized, hresamples, -⟩ :=
    (pass_resamples Listed.machine 0.5 (Listed.new #['a', 'b', 'c']) (some 2)
      (.start fun _ => .ofSeed 0) [.init ⟨{}, 0⟩, .generate]).2.1 hok rfl
  have hunfailing : Unfailing Listed.machine begun.wrapped.source := by
    have hhands : Listed.machine.HandsOut ⟨⟨#['a', 'b', 'c'], 0⟩, .running⟩ ['a', 'b', 'c'] :=
      Listed.handsOut rfl
    intro n fault h
    cases (hhands n).symm.trans h
  refine ⟨hok, fun draws => ?_⟩
  have hpass := hresamples (hsource ▸ hunfailing) draws
  refine ⟨?_, ?_⟩
  · intro k
    obtain ⟨⟨value, hvalue⟩, hended⟩ := hpass.lasts k
    cases value with
    | none => exact absurd (hended.mp hvalue) nofun
    | some c => exact ⟨c, hvalue⟩
  · intro hkeep c p k hk hfirst
    refine hpass.once 0 k c c p hk hfirst hkeep ?_
    -- the call finds two letters in the pool, and reads the third one but not the end
    obtain ⟨rng, hfilled⟩ : ∃ rng, refill Listed.machine begun =
        (.ok (), ⟨⟨⟨⟨#['a', 'b', 'c'], 2⟩, .running⟩, .running⟩, #['a', 'b'], some 2, false, rng⟩) :=
      ⟨_, rfl⟩
    change (Expand.emitAt Listed.machine false (draws 0) begun).2.depleted = false
    rw [Expand.emitAt, hfilled]
    dsimp only
    rw [if_neg (by decide), show (draws 0).keep #['a', 'b'].size = false from hkeep]
    rfl

end Expand
end SynthData
