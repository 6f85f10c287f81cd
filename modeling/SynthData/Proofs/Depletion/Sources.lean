import SynthData.Proofs.Depletion.Basic
import SynthData.Proofs.Generator.Lifecycle

/-!
# Sources that run out for good

Fixed data ends at a cursor that does not come back (`Leaf.Ends`).  A generator that
works on the values of a source has run out when its source has, when it has passed
on as many values as it should, or when there is nothing left in its pool.
-/
namespace SynthData

variable {σ α β κ : Type}

/-! ## Fixed data -/

namespace Leaf

/-- A cursor over fixed data that has come to the end for good. -/
structure Ends (next : κ → Option α × κ) (spent : κ → Prop) : Prop where
  ends : ∀ c, (next c).1 = none → spent (next c).2
  stays : ∀ c, spent c → (next c).1 = none ∧ spent (next c).2

variable {owner : String} {start : κ → κ} {next : κ → Option α × κ} {threadSafe : κ → Bool}
  {spent : κ → Prop}

theorem settles (hnext : Ends next spent) :
    (machine owner start next threadSafe).Settles Machine.Alone (fun _ => True)
      (fun leaf => leaf.phase ≠ .created ∧ spent leaf.cursor) := by
  refine .of_spent ?init ?ends ?stays fun _ hspent => ⟨by rintro ⟨⟩, hspent⟩
  case init =>
    intro context leaf streams h
    obtain ⟨fault, hfault, -⟩ := leaf.phase.requireCreated_error owner h
    simp [machine, hfault]
  case ends =>
    rintro ⟨cursor, phase⟩ h
    cases phase with
    | created | closed => cases h
    | running => exact ⟨by rintro ⟨⟩, hnext.ends cursor (Except.ok.inj h)⟩
  case stays =>
    rintro ⟨cursor, phase⟩ hphase hspent
    cases phase with
    | created => exact absurd rfl hphase
    | closed => exact ⟨by rintro _ ⟨⟩, hphase, hspent⟩
    | running =>
      obtain ⟨hnone, hleft⟩ := hnext.stays cursor hspent
      refine ⟨fun v h => ?_, hphase, hleft⟩
      cases hnone.symm.trans (Except.ok.inj h)

end Leaf

theorem Constant.ends : Leaf.Ends (Constant.next (α := α)) (fun c => c.once && c.emitted) where
  ends := by
    intro c h
    unfold Constant.next at h ⊢
    split at h
    · rename_i hspent
      rwa [if_pos hspent]
    · cases h
  stays := fun c hspent => by rw [Constant.next, if_pos hspent]; exact ⟨rfl, hspent⟩

theorem Constant.settles :
    (machine (α := α)).Settles Machine.Alone (fun _ => True)
      (fun leaf => leaf.phase ≠ .created ∧ leaf.cursor.once && leaf.cursor.emitted) :=
  Leaf.settles Constant.ends

theorem Listed.ends : Leaf.Ends (Listed.next (α := α)) (fun l => l.values[l.position]? = none) where
  ends := by
    intro l h
    unfold Listed.next at h ⊢
    split at h
    · cases h
    · rename_i hnone
      simp [hnone]
  stays := fun l hspent => by simp [Listed.next, hspent]

theorem Listed.settles :
    (machine (α := α)).Settles Machine.Alone (fun _ => True)
      (fun leaf => leaf.phase ≠ .created ∧ leaf.cursor.values[leaf.cursor.position]? = none) :=
  Leaf.settles Listed.ends

/-- The answers of an iterator that has come to its end stay away if there are never
answers again after the first that is missing. -/
theorem Iterated.ends {values : Nat → Nat → Option α}
    (hfused : ∀ pass i, values pass i = none → values pass (i + 1) = none) :
    Leaf.Ends (fun i : Iterated => (values (i.passes - 1) i.asked, { i with asked := i.asked + 1 }))
      (fun i => values (i.passes - 1) i.asked = none) where
  ends := fun _ h => hfused _ _ h
  stays := fun _ h => ⟨h, hfused _ _ h⟩

theorem Iterated.settles {values : Nat → Nat → Option α}
    (hfused : ∀ pass i, values pass i = none → values pass (i + 1) = none) :
    (machine values).Settles Machine.Alone (fun _ => True)
      (fun leaf => leaf.phase ≠ .created ∧
        values (leaf.cursor.passes - 1) leaf.cursor.asked = none) :=
  Leaf.settles (Iterated.ends hfused)

/-! ## Sources -/

namespace Wrapped

/-- Something happens to the source of a generator. -/
def Meanwhile (meanwhile : σ → σ → Prop) (w w' : Wrapped σ) : Prop :=
  meanwhile w.source w'.source ∧ w' = { w with source := w'.source }

/-- A generator whose source has run out. -/
def Dry (dry : σ → Prop) (w : Wrapped σ) : Prop := w.phase ≠ .created ∧ dry w.source

variable {owner : String} {m : Machine σ α} {meanwhile : σ → σ → Prop} {inv dry : σ → Prop}
  {w w' : Wrapped σ}

/-- A generator that is not new is not initialized. -/
theorem init_dry (h : w.phase ≠ .created) (context : Context) (streams : Streams) :
    (w.init owner m context streams).2.1 = w := by
  obtain ⟨fault, hinit, -⟩ := init_refused owner m h context streams
  rw [hinit]

theorem generate_keeps (owner : String) (hm : m.Keeps inv) (hw : inv w.source) :
    inv (w.generate owner m).2.source := by
  rcases generate_cases owner m w with ⟨-, hstate⟩ | ⟨-, -, hstate⟩
  · rw [hstate]
    exact hw
  · rw [hstate]
    exact hm.generate w.source hw

theorem ends (owner : String) (hm : m.Settles meanwhile inv dry) (hw : inv w.source)
    (h : (w.generate owner m).1 = .ok none) : Dry dry (w.generate owner m).2 := by
  rcases generate_cases owner m w with ⟨⟨fault, hfault⟩, -⟩ | ⟨running, hanswer, hstate⟩
  · rw [hfault] at h
    cases h
  · rw [hstate, running]
    exact ⟨nofun, hm.ends w.source hw (hanswer ▸ h)⟩

theorem Dry.answer (owner : String) (hm : m.Settles meanwhile inv dry) (hw : inv w.source)
    (hdry : Dry dry w) (v : α) : (w.generate owner m).1 ≠ .ok (some v) := by
  rcases generate_cases owner m w with ⟨⟨fault, hfault⟩, -⟩ | ⟨-, hanswer, -⟩
  · rw [hfault]
    nofun
  · rw [hanswer]
    exact hm.answer w.source v hw hdry.2

theorem Dry.generate (owner : String) (hm : m.Settles meanwhile inv dry) (hw : inv w.source)
    (hdry : Dry dry w) : Dry dry (w.generate owner m).2 := by
  rcases generate_cases owner m w with ⟨-, hstate⟩ | ⟨-, -, hstate⟩
  · rw [hstate]
    exact hdry
  · rw [hstate]
    exact ⟨hdry.1, hm.generate_dry w.source hw hdry.2⟩

theorem Dry.close (hm : m.Settles meanwhile inv dry) (hw : inv w.source) (hdry : Dry dry w) :
    Dry dry (w.close m) :=
  ⟨nofun, hm.close_dry w.source hw hdry.2⟩

theorem Dry.elsewhere (hm : m.Settles meanwhile inv dry) (hw : inv w.source) (hdry : Dry dry w)
    (h : Meanwhile meanwhile w w') : Dry dry w' :=
  ⟨by rw [h.2]; exact hdry.1, hm.meanwhile_dry _ _ hw hdry.2 h.1⟩

end Wrapped

section

variable {m : Machine σ α} {meanwhile : σ → σ → Prop} {inv dry : σ → Prop}

namespace Mapped

variable {owner : String} {f : α → β}

theorem generate_fst (w : Wrapped σ) :
    ((machine owner m f).generate w).1 = (w.generate owner m).1.map (Option.map f) := by
  simp only [machine]
  split <;> simp_all [Except.map]

theorem settles (hm : m.Settles meanwhile inv dry) :
    (machine owner m f).Settles (Wrapped.Meanwhile meanwhile) (fun w => inv w.source)
      (Wrapped.Dry dry) where
  toKeeps := machine_keeps hm.toKeeps
  meanwhile_inv := fun _ _ hw h => hm.meanwhile_inv _ _ hw h.1
  ends := by
    intro w hw h
    rw [generate_snd]
    rw [generate_fst] at h
    exact Wrapped.ends owner hm hw (Machine.map_eq_none h)
  answer := by
    intro w b hw hdry h
    rw [generate_fst] at h
    obtain ⟨a, ha⟩ := Machine.map_eq_some h
    exact hdry.answer owner hm hw a ha
  init_dry := by
    intro context w streams _ hdry
    show Wrapped.Dry dry (w.init owner m context streams).2.1
    rwa [Wrapped.init_dry hdry.1]
  generate_dry := fun w hw hdry => by rw [generate_snd]; exact hdry.generate owner hm hw
  close_dry := fun _ hw hdry => hdry.close hm hw
  meanwhile_dry := fun _ _ hw hdry h => hdry.elsewhere hm hw h

end Mapped

namespace Head

variable {size : Nat}

/-- Something happens to the source of a head. -/
def Meanwhile (meanwhile : σ → σ → Prop) (head head' : Head σ) : Prop :=
  head.wrapped.Meanwhile meanwhile head'.wrapped ∧ head' = { head with wrapped := head'.wrapped }

/-- A head that has passed on all that it should, or whose source has run out. -/
def Dry (dry : σ → Prop) (size : Nat) (head : Head σ) : Prop :=
  head.wrapped.phase ≠ .created ∧ (size ≤ head.emitted ∨ dry head.wrapped.source)

theorem init_wrapped (head : Head σ) (context : Context) (streams : Streams) :
    ((machine m size).init context head streams).2.1.wrapped =
      (head.wrapped.init owner m context streams).2.1 := by
  simp only [machine]
  split <;> simp_all

theorem reset_wrapped (head : Head σ) (streams : Streams) :
    ((machine m size).reset head streams).2.1.wrapped =
      (head.wrapped.reset owner m streams).2.1 := by
  simp only [machine]
  split <;> simp_all

/-- A head asks its source unless it is closed or has passed on enough. -/
theorem generate_cases (m : Machine σ α) (size : Nat) (head : Head σ) :
    ((∃ fault, ((machine m size).generate head).1 = .error fault) ∧
        ((machine m size).generate head).2 = head) ∨
      (size ≤ head.emitted ∧ head.wrapped.phase = .running ∧
        (machine m size).generate head = (.ok none, head)) ∨
      (head.emitted < size ∧
        ((machine m size).generate head).1 = (head.wrapped.generate owner m).1 ∧
        ((machine m size).generate head).2.wrapped = (head.wrapped.generate owner m).2) := by
  obtain ⟨wrapped, emitted⟩ := head
  cases hphase : wrapped.phase with
  | created | closed => exact Or.inl ⟨⟨_, by simp [machine, hphase, Phase.requireRunning]; rfl⟩,
      by simp [machine, hphase, Phase.requireRunning]⟩
  | running =>
    right
    by_cases hsize : size ≤ emitted
    · exact Or.inl ⟨hsize, rfl, by simp [machine, hphase, Phase.requireRunning, hsize]⟩
    · refine Or.inr ⟨Nat.lt_of_not_le hsize, ?_⟩
      simp only [machine, hphase, Phase.requireRunning, if_neg hsize]
      rcases wrapped.generate owner m with ⟨_ | _ | v, w⟩ <;> exact ⟨rfl, rfl⟩

theorem machine_keeps (hm : m.Keeps inv) :
    (machine m size).Keeps (fun head => inv head.wrapped.source) where
  init := fun context head streams hw => by
    rw [init_wrapped]
    exact (Wrapped.init_opens owner m head.wrapped context streams).keeps hm hw
  generate := fun head hw => by
    rcases generate_cases m size head with ⟨-, hstate⟩ | ⟨-, -, hanswer⟩ | ⟨-, -, hstate⟩
    · rwa [hstate]
    · rwa [hanswer]
    · rw [hstate]
      exact Wrapped.generate_keeps owner hm hw
  reset := fun head streams hw => by
    rw [reset_wrapped]
    exact (Wrapped.reset_restarts owner m head.wrapped streams).keeps hm hw
  close := fun head hw => hm.close head.wrapped.source hw

theorem settles (hm : m.Settles meanwhile inv dry) :
    (machine m size).Settles (Meanwhile meanwhile) (fun head => inv head.wrapped.source)
      (Dry dry size) where
  toKeeps := machine_keeps hm.toKeeps
  meanwhile_inv := fun _ _ hw h => hm.meanwhile_inv _ _ hw h.1.1
  ends := by
    intro head hw h
    rcases generate_cases m size head with
      ⟨⟨fault, hfault⟩, -⟩ | ⟨hsize, running, hanswer⟩ | ⟨-, hanswer, hstate⟩
    · rw [hfault] at h
      cases h
    · rw [hanswer]
      exact ⟨by rw [running]; nofun, Or.inl hsize⟩
    · obtain ⟨hphase, hdry⟩ := Wrapped.ends owner hm hw (hanswer ▸ h)
      exact ⟨by rwa [hstate], Or.inr (by rwa [hstate])⟩
  answer := by
    intro head v hw hdry h
    rcases generate_cases m size head with
      ⟨⟨fault, hfault⟩, -⟩ | ⟨-, -, hanswer⟩ | ⟨hsize, hanswer, -⟩
    · rw [hfault] at h
      cases h
    · rw [hanswer] at h
      cases h
    · have hsource := hdry.2.resolve_left (Nat.not_le_of_lt hsize)
      exact Wrapped.Dry.answer owner hm hw ⟨hdry.1, hsource⟩ v (hanswer ▸ h)
  init_dry := by
    intro context head streams _ hdry
    obtain ⟨fault, hinit, -⟩ := Wrapped.init_refused owner m hdry.1 context streams
    simpa only [machine, hinit] using hdry
  generate_dry := by
    intro head hw hdry
    rcases generate_cases m size head with ⟨-, hstate⟩ | ⟨-, -, hanswer⟩ | ⟨hsize, -, hstate⟩
    · rwa [hstate]
    · rwa [hanswer]
    · have hsource := hdry.2.resolve_left (Nat.not_le_of_lt hsize)
      have hleft := Wrapped.Dry.generate owner hm hw ⟨hdry.1, hsource⟩
      exact ⟨by rw [hstate]; exact hleft.1, Or.inr (by rw [hstate]; exact hleft.2)⟩
  close_dry := fun head hw hdry =>
    ⟨nofun, hdry.2.imp_right (hm.close_dry head.wrapped.source hw)⟩
  meanwhile_dry := by
    rintro head head' hw hdry ⟨⟨hsource, hwrapped⟩, hhead⟩
    refine ⟨by rw [hwrapped]; exact hdry.1, hdry.2.imp (fun hsize => ?_) fun hs => ?_⟩
    · rw [hhead]
      exact hsize
    · exact hm.meanwhile_dry _ _ hw hs hsource

end Head

namespace Unique

/-- Something happens to the source of a unique generator. -/
def Meanwhile [BEq α] [Hashable α] (meanwhile : σ → σ → Prop) (u u' : Unique σ α) : Prop :=
  u.wrapped.Meanwhile meanwhile u'.wrapped ∧ u' = { u with wrapped := u'.wrapped }

variable [BEq α] [Hashable α] {explicit : Bool} {limit chances : Nat} {seen : Std.HashSet α}
  {w : Wrapped σ}

theorem seek_keeps (hm : m.Keeps inv) (hw : inv w.source) :
    inv (seek m limit chances seen w).2.2.source := by
  have hleft := Wrapped.generate_keeps owner hm hw
  fun_induction seek m limit chances seen w with
  | case1 chances seen w fault w' hgenerate => simpa [hgenerate] using hleft
  | case2 chances seen w w' hgenerate => simpa [hgenerate] using hleft
  | case3 seen w v w' hgenerate hseen => simpa [hgenerate] using hleft
  | case4 seen w v w' hgenerate hseen chances ih =>
    have hw' : inv w'.source := by simpa [hgenerate] using hleft
    exact ih hw' (Wrapped.generate_keeps owner hm hw')
  | case5 chances seen w v w' hgenerate hseen => simpa [hgenerate] using hleft

/-- A search finds nothing only if the source has run out. -/
theorem seek_ends (hm : m.Settles meanwhile inv dry) (hw : inv w.source)
    (h : (seek m limit chances seen w).1 = .ok none) :
    (seek m limit chances seen w).2.2.Dry dry := by
  fun_induction seek m limit chances seen w with
  | case2 chances seen w w' hgenerate =>
    simpa [hgenerate] using Wrapped.ends owner hm hw (by rw [hgenerate])
  | case4 seen w v w' hgenerate hseen chances ih =>
    have hleft := Wrapped.generate_keeps owner hm.toKeeps hw
    exact ih (by simpa [hgenerate] using hleft) h
  | case1 | case3 | case5 => cases h

/-- A source that has run out is asked only once. -/
theorem seek_dry (hm : m.Settles meanwhile inv dry) (hw : inv w.source) (hdry : w.Dry dry) :
    (∀ v, (seek m limit chances seen w).1 ≠ .ok (some v)) ∧
      (seek m limit chances seen w).2.2.Dry dry := by
  have hanswer := hdry.answer owner hm hw
  have hleft := hdry.generate owner hm hw
  unfold seek
  rcases hgenerate : w.generate owner m with ⟨_ | _ | v, w'⟩
  all_goals rw [hgenerate] at hanswer hleft
  · exact ⟨by simp, hleft⟩
  · exact ⟨by simp, hleft⟩
  · exact absurd rfl (hanswer v)

theorem reset_wrapped (u : Unique σ α) (streams : Streams) :
    ((machine m explicit).reset u streams).2.1.wrapped = (u.wrapped.reset owner m streams).2.1 := by
  simp only [machine]
  split <;> simp_all

theorem machine_keeps (hm : m.Keeps inv) :
    (machine m explicit).Keeps (fun u => inv u.wrapped.source) where
  init := fun context u streams hw =>
    (Wrapped.init_opens owner m u.wrapped context streams).keeps hm hw
  generate := fun u hw => seek_keeps hm hw
  reset := fun u streams hw => by
    rw [reset_wrapped]
    exact (Wrapped.reset_restarts owner m u.wrapped streams).keeps hm hw
  close := fun u hw => hm.close u.wrapped.source hw

theorem settles (hm : m.Settles meanwhile inv dry) :
    (machine (α := α) m explicit).Settles (Meanwhile meanwhile) (fun u => inv u.wrapped.source)
      (fun u => u.wrapped.Dry dry) where
  toKeeps := machine_keeps hm.toKeeps
  meanwhile_inv := fun _ _ hw h => hm.meanwhile_inv _ _ hw h.1.1
  ends := fun u hw h => seek_ends hm hw h
  answer := fun u v hw hdry => (seek_dry hm hw hdry).1 v
  init_dry := by
    intro context u streams _ hdry
    show (u.wrapped.init owner m context streams).2.1.Dry dry
    rwa [Wrapped.init_dry hdry.1]
  generate_dry := fun u hw hdry => (seek_dry hm hw hdry).2
  close_dry := fun _ hw hdry => hdry.close hm hw
  meanwhile_dry := fun _ _ hw hdry h => hdry.elsewhere hm hw h.1

end Unique

namespace Expand

variable {unique : Bool} {quota : Float} {e : Expand σ α}

/-- Something happens to the source of an expander. -/
def Meanwhile (meanwhile : σ → σ → Prop) (e e' : Expand σ α) : Prop :=
  e.wrapped.Meanwhile meanwhile e'.wrapped ∧ e' = { e with wrapped := e'.wrapped }

/-- Filling adds members to the pool and takes none out. -/
theorem size_le_fill (room : Nat) (pool : Array α) (depleted : Bool) (w : Wrapped σ) :
    pool.size ≤ (fill m room pool depleted w).2.1.size := by
  fun_induction fill m room pool depleted w with
  | case4 room pool depleted w v w' depleted' hpull ih => exact Nat.le_trans (by simp) ih
  | case1 | case2 | case3 => exact Nat.le_refl _

theorem pull_none {depleted : Bool} {w : Wrapped σ} (h : (pull m depleted w).1 = .ok none) :
    (pull m depleted w).2.2 = true := by
  unfold pull at h ⊢
  cases depleted with
  | true => rfl
  | false =>
    rcases hgenerate : m.generate w.source with ⟨_ | _ | v, s⟩
    all_goals simp_all

/-- A pool that is empty after it has been filled stays so: there is no room in it, or
the source has run out. -/
theorem fill_empty (room : Nat) (pool : Array α) (depleted : Bool) (w : Wrapped σ)
    (hok : (fill m room pool depleted w).1 = .ok ())
    (hempty : (fill m room pool depleted w).2.1 = #[]) :
    room = 0 ∨ (fill m room pool depleted w).2.2.1 = true := by
  fun_induction fill m room pool depleted w with
  | case1 => exact Or.inl rfl
  | case2 => cases hok
  | case3 room pool depleted w w' depleted' hpull =>
    have hknown := pull_none (by rw [hpull] : (pull m depleted w).1 = .ok none)
    exact Or.inr (by simpa [hpull] using hknown)
  | case4 room pool depleted w v w' depleted' hpull ih =>
    have hsize := size_le_fill (m := m) room (pool.push v) depleted' w'
    simp [hempty] at hsize

/-- An expander that has nothing to draw from, or nothing to draw with. -/
def Dry (e : Expand σ α) : Prop :=
  e.rng = none ∨ e.pool = #[] ∧ (e.depleted = true ∨ e.capacity.getD 1 = 0)

/-- A member that is handed out is there. -/
theorem handOut_none {index : Nat} {keep : Bool}
    (h : (handOut m unique index keep e).1 = .ok none) : e.pool[index]? = none := by
  obtain ⟨wrapped, pool, capacity, depleted, rng⟩ := e
  unfold handOut at h
  cases unique with
  | true => exact Except.ok.inj h
  | false =>
    cases keep with
    | true => exact Except.ok.inj h
    | false =>
      rcases hpull : pull m depleted wrapped with ⟨_ | _ | v, w', depleted'⟩
      all_goals simp only [hpull] at h
      · cases h
      · exact Except.ok.inj h
      · exact Except.ok.inj h

theorem emit_ends (h : (emit m unique quota e).1 = .ok none) : (emit m unique quota e).2.Dry := by
  obtain ⟨wrapped, pool, capacity, depleted, rng⟩ := e
  have hempty := fill_empty (m := m) (capacity.getD 1 - pool.size) pool depleted wrapped
  have hsize := size_le_fill (m := m) (capacity.getD 1 - pool.size) pool depleted wrapped
  unfold emit refill at h ⊢
  rcases hfill : fill m (capacity.getD 1 - pool.size) pool depleted wrapped with
    ⟨_ | _, pool', depleted', wrapped'⟩
  all_goals simp only [hfill] at h hempty hsize ⊢
  · cases h
  · by_cases hpool : pool'.isEmpty
    · obtain rfl := Array.isEmpty_iff.mp hpool
      refine Or.inr ⟨rfl, (hempty trivial rfl).symm.imp_right fun hroom => ?_⟩
      have : pool.size ≤ 0 := hsize
      show capacity.getD 1 = 0
      omega
    · rw [if_neg hpool] at h ⊢
      cases rng with
      | none => exact Or.inl rfl
      | some rng =>
        have hpos : 0 < pool'.size := Nat.pos_of_ne_zero fun hzero => hpool (by simp_all)
        have hindex : (rng.below pool'.size).1 < pool'.size := rng.below_lt hpos
        -- the position that is drawn has a member, so there is an answer
        cases unique with
        | true =>
          simp only [if_true] at h
          have hgone := handOut_none h
          simp [hindex] at hgone
        | false =>
          simp only [Bool.false_eq_true, if_false] at h
          have hgone := handOut_none h
          simp [hindex] at hgone

/-- An empty pool that cannot be filled is left as it is. -/
theorem emit_empty {wrapped : Wrapped σ} {capacity : Option Nat} {depleted : Bool}
    {rng : Option Rng} (hroom : depleted = true ∨ capacity.getD 1 = 0) :
    emit m unique quota ⟨wrapped, #[], capacity, depleted, rng⟩ =
      (.ok none, ⟨wrapped, #[], capacity, depleted, rng⟩) := by
  have hrefill : refill m ⟨wrapped, #[], capacity, depleted, rng⟩ =
      (.ok (), ⟨wrapped, #[], capacity, depleted, rng⟩) := by
    rw [refill, Array.size_empty, Nat.sub_zero]
    cases hcapacity : capacity.getD 1 with
    | zero => rfl
    | succ room =>
      obtain rfl : depleted = true := hroom.resolve_right (by rw [hcapacity]; nofun)
      rfl
  rw [emit, hrefill]
  rfl

/-- An expander that has run out does not read its source any more. -/
theorem emit_dry (he : e.Dry) :
    (∀ v, (emit m unique quota e).1 ≠ .ok (some v)) ∧ (emit m unique quota e).2.Dry := by
  obtain ⟨wrapped, pool, capacity, depleted, rng⟩ := e
  rcases he with hrng | ⟨hpool, hroom⟩
  · obtain rfl : rng = none := hrng
    unfold emit refill
    rcases hfill : fill m (capacity.getD 1 - pool.size) pool depleted wrapped with
      ⟨_ | _, pool', depleted', wrapped'⟩
    all_goals simp only [hfill]
    · exact ⟨nofun, Or.inl rfl⟩
    · by_cases hempty : pool'.isEmpty
      · simp only [if_pos hempty]
        exact ⟨nofun, Or.inl rfl⟩
      · simp only [if_neg hempty]
        exact ⟨nofun, Or.inl rfl⟩
  · obtain rfl : pool = #[] := hpool
    rw [emit_empty hroom]
    exact ⟨nofun, Or.inr ⟨rfl, hroom⟩⟩

theorem settles (hm : m.Settles meanwhile inv dry) :
    (machine m unique quota).Settles (Meanwhile meanwhile)
      (fun e => Sound inv (fun _ => True) e.wrapped.source e.pool)
      (fun e => e.wrapped.phase ≠ .created ∧ e.Dry) where
  toKeeps := (machine_yields ⟨hm.toKeeps, fun _ _ _ _ => trivial⟩ unique quota).toKeeps
  meanwhile_inv := fun _ _ he h => ⟨hm.meanwhile_inv _ _ he.1 h.1.1, fun _ _ => trivial⟩
  ends := by
    intro e _ h
    rcases generate_cases m unique quota e with ⟨⟨fault, hfault⟩, -⟩ | ⟨running, hemit⟩
    · rw [hfault] at h
      cases h
    · rw [hemit] at h ⊢
      exact ⟨by rw [emit_phase, running]; nofun, emit_ends h⟩
  answer := by
    intro e v _ hdry h
    rcases generate_cases m unique quota e with ⟨⟨fault, hfault⟩, -⟩ | ⟨-, hemit⟩
    · rw [hfault] at h
      cases h
    · exact (emit_dry hdry.2).1 v (hemit ▸ h)
  init_dry := by
    intro context e streams _ hdry
    obtain ⟨fault, hinit, -⟩ := Wrapped.init_refused owner m hdry.1 context streams
    simpa only [machine, hinit] using hdry
  generate_dry := by
    intro e _ hdry
    rcases generate_cases m unique quota e with ⟨-, hstate⟩ | ⟨running, hemit⟩
    · rwa [hstate]
    · rw [hemit]
      exact ⟨by rw [emit_phase]; exact hdry.1, (emit_dry hdry.2).2⟩
  close_dry := fun e _ hdry => ⟨nofun, hdry.2.imp_right fun h => ⟨rfl, h.2⟩⟩
  meanwhile_dry := by
    rintro e e' - hdry ⟨⟨-, hwrapped⟩, he⟩
    rw [he, hwrapped]
    exact hdry

end Expand

end

end SynthData
