import Mathlib.Algebra.Order.BigOperators.Group.List
import Mathlib.Algebra.Order.Ring.Nat
import Mathlib.Algebra.Group.Action.Defs
import SynthData.Proofs.Generator.Occurrences
import SynthData.Proofs.Generator.Restart
import SynthData.Proofs.Generator.Retained

/-!
# Resets that fail

A pass lasts from one call of `init` or `reset` that succeeds to the next one.  Calls of `reset`
that fail in between cut what is handed out in the pass into stretches (`Machine.Stretched`).

A head counts its values and a unique generator remembers them, so that a pass has no more than
there should be and none of them twice.  Both forget everything before they reset their source.
If the source then fails, it may go on where it was, and the generator begins anew: what is kept in
mind is the latest stretch only (`Machine.Notes`).
-/
namespace SynthData

/-! ## Stretches of a pass -/

/-- A run and what it has handed out since the last call of `init` or `reset` that succeeded, cut
into stretches by the calls of `reset` that have failed since then.  The latest values and
the latest stretches come first. -/
structure Stretched (σ α : Type) where
  run : Run σ α
  latest : List α
  earlier : List (List α)

namespace Stretched

variable {σ α : Type}

/-- All values of the pass. -/
def values (t : Stretched σ α) : List α := t.latest ++ t.earlier.flatten

theorem values_eq_latest {t : Stretched σ α} (h : ∀ stretch ∈ t.earlier, stretch = []) :
    t.values = t.latest := by
  rw [values, List.flatten_eq_nil_iff.mpr h, List.append_nil]

end Stretched

namespace Machine

variable {σ α : Type} (m : Machine σ α)

/-- What a call makes of the stretches of a pass. -/
def stretch (t : Stretched σ α) (c : Call) : Stretched σ α :=
  let run := m.call t.run c
  match c with
  | .init context =>
    match (m.init context t.run.state t.run.streams).1 with
    | .ok _ => ⟨run, [], []⟩
    | .error _ => ⟨run, t.latest, t.earlier⟩
  | .generate => ⟨run, (valueOf (m.generate t.run.state).1).toList ++ t.latest, t.earlier⟩
  | .reset =>
    match (m.reset t.run.state t.run.streams).1 with
    | .ok _ => ⟨run, [], []⟩
    | .error _ => ⟨run, [], t.latest :: t.earlier⟩
  | .close => ⟨run, t.latest, t.earlier⟩

/-- The stretches that calls of a new generator lead to. -/
def stretches (calls : List Call) (s : σ) (streams : Streams) : Stretched σ α :=
  calls.foldl m.stretch ⟨.start s streams, [], []⟩

theorem stretch_run (t : Stretched σ α) (c : Call) : (m.stretch t c).run = m.call t.run c := by
  cases c with
  | init _ | reset => simp only [stretch]; split <;> rfl
  | generate | close => rfl

/-- The stretches belong to the run of the calls. -/
theorem stretches_run (calls : List Call) (s : σ) (streams : Streams) :
    (m.stretches calls s streams).run = m.run calls (.start s streams) := by
  suffices h : ∀ t : Stretched σ α, (calls.foldl m.stretch t).run = m.run calls t.run from h _
  induction calls with
  | nil => exact fun _ => rfl
  | cons c calls ih =>
    intro t
    rw [List.foldl_cons, ih, stretch_run]
    rfl

variable {m}

/-- **A generator that keeps its values in mind** in some form, so that what it has in mind stays
good.  Every call of `reset` makes it forget, whether it fails or not. -/
structure Notes (m : Machine σ α) (noted : σ → List α → Prop) (good : List α → Prop) : Prop where
  nil : good []
  init_ok : ∀ context s streams values, noted s values →
    (m.init context s streams).1 = .ok () → noted (m.init context s streams).2.1 []
  init_error : ∀ context s streams values fault, noted s values →
    (m.init context s streams).1 = .error fault → noted (m.init context s streams).2.1 values
  generate_some : ∀ s values v, noted s values → (m.generate s).1 = .ok (some v) →
    noted (m.generate s).2 (v :: values) ∧ (good values → good (v :: values))
  generate_none : ∀ s values, noted s values → valueOf (m.generate s).1 = none →
    noted (m.generate s).2 values
  reset : ∀ s streams values, noted s values → noted (m.reset s streams).2.1 []
  close : ∀ s values, noted s values → noted (m.close s) values

section

variable {noted : σ → List α → Prop} {good : List α → Prop}

/-- The latest stretch is in mind, and every stretch is good. -/
structure Stretched.Noted (noted : σ → List α → Prop) (good : List α → Prop)
    (t : Stretched σ α) : Prop where
  noted : noted t.run.state t.latest
  latest : good t.latest
  earlier : ∀ stretch ∈ t.earlier, good stretch

theorem Notes.stretch (hm : m.Notes noted good) {t : Stretched σ α}
    (ht : Stretched.Noted noted good t) (c : Call) :
    Stretched.Noted noted good (m.stretch t c) := by
  cases c with
  | init context =>
    rcases hinit : (m.init context t.run.state t.run.streams).1 with fault | _
    · simp only [Machine.stretch, hinit]
      exact ⟨hm.init_error _ _ _ _ _ ht.noted hinit, ht.latest, ht.earlier⟩
    · simp only [Machine.stretch, hinit]
      exact ⟨hm.init_ok _ _ _ _ ht.noted hinit, hm.nil, nofun⟩
  | generate =>
    rcases hvalue : valueOf (m.generate t.run.state).1 with _ | v
    · refine ⟨?_, by simpa [Machine.stretch, hvalue] using ht.latest, ht.earlier⟩
      simpa [Machine.stretch, hvalue, (call_generate t.run).1] using
        hm.generate_none _ _ ht.noted hvalue
    · obtain ⟨hnoted, hgood⟩ := hm.generate_some _ _ _ ht.noted (valueOf_eq_some.mp hvalue)
      refine ⟨?_, by simpa [Machine.stretch, hvalue] using hgood ht.latest, ht.earlier⟩
      simpa [Machine.stretch, hvalue, (call_generate t.run).1] using hnoted
  | reset =>
    have hnoted : noted (m.call t.run .reset).state [] := hm.reset _ t.run.streams _ ht.noted
    rcases hreset : (m.reset t.run.state t.run.streams).1 with fault | _
    · simp only [Machine.stretch, hreset]
      refine ⟨hnoted, hm.nil, fun stretch hmem => ?_⟩
      rcases List.mem_cons.mp hmem with rfl | hmem
      · exact ht.latest
      · exact ht.earlier stretch hmem
    · simp only [Machine.stretch, hreset]
      exact ⟨hnoted, hm.nil, nofun⟩
  | close => exact ⟨hm.close _ _ ht.noted, ht.latest, ht.earlier⟩

/-- **Every stretch is good**, and the latest one is in mind, whatever was called. -/
theorem Notes.stretches (hm : m.Notes noted good) {s : σ} (hs : noted s []) (calls : List Call)
    (streams : Streams) : Stretched.Noted noted good (m.stretches calls s streams) := by
  suffices h : ∀ t, Stretched.Noted noted good t →
      Stretched.Noted noted good (calls.foldl m.stretch t) from h _ ⟨hs, hm.nil, nofun⟩
  induction calls with
  | nil => exact fun _ ht => ht
  | cons c calls ih => exact fun t ht => ih _ (hm.stretch ht c)

end

end Machine

/-! ## Heads -/

namespace Head

variable {σ α : Type}

/-- A reset forgets the count, whatever its source does. -/
theorem reset_snd (m : Machine σ α) (size : Nat) (head : Head σ) (streams : Streams) :
    ((machine m size).reset head streams).2.1 =
      ⟨(head.wrapped.reset owner m streams).2.1, 0⟩ := by
  simp only [machine]
  split <;> simp_all

/-- What a call of `generate` does to the count. -/
theorem generate_count (m : Machine σ α) (size : Nat) (head : Head σ) :
    (∃ v, ((machine m size).generate head).1 = .ok (some v) ∧ head.emitted < size ∧
        ((machine m size).generate head).2.emitted = head.emitted + 1) ∨
      Machine.valueOf ((machine m size).generate head).1 = none ∧
        ((machine m size).generate head).2.emitted = head.emitted := by
  obtain ⟨⟨source, phase⟩, emitted⟩ := head
  cases phase with
  | created | closed => exact Or.inr ⟨rfl, rfl⟩
  | running =>
    by_cases hwanted : emitted < size
    · rw [generate_of_wanted hwanted]
      rcases m.generate source with ⟨_ | _ | v, source'⟩
      · exact Or.inr ⟨rfl, rfl⟩
      · exact Or.inr ⟨rfl, rfl⟩
      · exact Or.inl ⟨v, rfl, hwanted, rfl⟩
    · rw [generate_of_enough (Nat.not_lt.mp hwanted)]
      exact Or.inr ⟨rfl, rfl⟩

/-- **A head counts its values.** -/
theorem notes (m : Machine σ α) (size : Nat) :
    (machine m size).Notes (fun head values => head.emitted = values.length)
      (fun values => values.length ≤ size) where
  nil := Nat.zero_le size
  init_ok := by
    intro context head streams values _ hok
    simp only [machine] at hok ⊢
    split at hok <;> simp_all
  init_error := by
    intro context head streams values fault hnoted herror
    simp only [machine] at herror ⊢
    split at herror <;> simp_all
  generate_some := by
    intro head values v hnoted hanswer
    rcases generate_count m size head with ⟨_, -, hroom, hcount⟩ | ⟨hnone, -⟩
    · rw [hcount, hnoted, List.length_cons]
      exact ⟨rfl, fun _ => by omega⟩
    · rw [hanswer] at hnone
      cases hnone
  generate_none := by
    intro head values hnoted hnone
    rcases generate_count m size head with ⟨_, hanswer, -⟩ | ⟨-, hcount⟩
    · rw [hanswer] at hnone
      cases hnone
    · exact hcount.trans hnoted
  reset := by
    intro head streams values _
    rw [reset_snd]
    rfl
  close := fun _ _ hnoted => hnoted

end Head

namespace Unique

variable {σ α : Type} [BEq α] [Hashable α]

/-- The values that are in mind as long as the generator runs. -/
structure Remembers (u : Unique σ α) (values : List α) : Prop where
  running : u.wrapped.phase = .running → ∀ v, v ∈ u.seen ↔ v ∈ values
  forgets : Forgets u

/-- A call of `init` that fails leaves no generator running that did not run before. -/
theorem running_of_init_error {m : Machine σ α} {explicit : Bool} {u : Unique σ α}
    {context : Context} {streams : Streams} {fault : Fault}
    (h : ((machine m explicit).init context u streams).1 = .error fault)
    (hrunning : ((machine m explicit).init context u streams).2.1.wrapped.phase = .running) :
    u.wrapped.phase = .running := by
  have hopens := u.wrapped.init_opens owner m context streams
  rw [show (u.wrapped.init owner m context streams).1 = .error fault from h] at hopens
  replace hrunning : (u.wrapped.init owner m context streams).2.1.phase = .running := hrunning
  generalize (u.wrapped.init owner m context streams).2.1 = w at hopens hrunning
  cases hopens with
  | refused _ _ => exact hrunning
  | failed _ _ _ _ _ => exact hrunning

/-- **A unique generator remembers its values.** -/
theorem notes [LawfulBEq α] (m : Machine σ α) (explicit : Bool) :
    (machine m explicit).Notes Remembers List.Nodup where
  nil := List.nodup_nil
  init_ok := by
    intro context u streams values hu hok
    exact ⟨fun _ => (hu.forgets.init_begins hok).seen,
      (keeps_forgets m explicit).init context u streams hu.forgets⟩
  init_error := by
    intro context u streams values fault hu herror
    exact ⟨fun hrunning => hu.running (running_of_init_error herror hrunning),
      (keeps_forgets m explicit).init context u streams hu.forgets⟩
  generate_some := by
    intro u values v hu hanswer
    have hforgets := (keeps_forgets m explicit).generate u hu.forgets
    rw [generate_eq] at hanswer hforgets ⊢
    obtain ⟨-, ⟨hnone, -⟩ | ⟨v', hanswer', running, hfresh, hseen⟩⟩ :=
      seek_sought m u.limit (u.limit - 1) u.seen u.wrapped
    · exact absurd hanswer (hnone v)
    · obtain rfl := Option.some.inj (Except.ok.inj (hanswer'.symm.trans hanswer))
      refine ⟨⟨fun _ v => ?_, hforgets⟩, fun hnodup =>
        List.nodup_cons.mpr ⟨(hu.running running v').not.mp hfresh, hnodup⟩⟩
      show v ∈ (seek m u.limit (u.limit - 1) u.seen u.wrapped).2.1 ↔ _
      rw [hseen, Std.HashSet.mem_insert, List.mem_cons, hu.running running, beq_iff_eq, eq_comm]
  generate_none := by
    intro u values hu hnone
    have hforgets := (keeps_forgets m explicit).generate u hu.forgets
    rw [generate_eq] at hnone hforgets ⊢
    obtain ⟨hphase, ⟨-, hseen⟩ | ⟨v, hanswer, -⟩⟩ :=
      seek_sought m u.limit (u.limit - 1) u.seen u.wrapped
    · refine ⟨fun hrunning v => ?_, hforgets⟩
      show v ∈ (seek m u.limit (u.limit - 1) u.seen u.wrapped).2.1 ↔ _
      rw [hseen]
      exact hu.running (hphase.symm.trans hrunning) v
    · rw [hanswer] at hnone
      cases hnone
  reset := by
    intro u streams values _
    rw [reset_snd]
    exact ⟨fun _ => by simp, fun _ => rfl⟩
  close := fun _ _ _ => ⟨nofun, fun _ => rfl⟩

end Unique

/-! ## What a failed reset costs -/

theorem Stretched.length_values_le {α σ : Type} {size : Nat} {t : Stretched σ α}
    (h : ∀ stretch ∈ t.latest :: t.earlier, stretch.length ≤ size) :
    t.values.length ≤ size * (t.earlier.length + 1) := by
  have hsum := List.sum_le_card_nsmul ((t.latest :: t.earlier).map List.length) size
    (by simpa using h)
  rw [List.length_map, ← List.length_flatten, smul_eq_mul, Nat.mul_comm] at hsum
  exact hsum

theorem Stretched.count_values_le {α σ : Type} [BEq α] [LawfulBEq α] {t : Stretched σ α}
    (h : ∀ stretch ∈ t.latest :: t.earlier, stretch.Nodup) (v : α) :
    t.values.count v ≤ t.earlier.length + 1 := by
  have hsum := List.sum_le_card_nsmul ((t.latest :: t.earlier).map (List.count v)) 1 (by
    intro n hn
    obtain ⟨stretch, hmem, rfl⟩ := List.mem_map.mp hn
    exact List.nodup_iff_count_le_one.mp (h stretch hmem) v)
  rw [List.length_map, ← List.count_flatten, smul_eq_mul, Nat.mul_one] at hsum
  exact hsum

variable {σ α : Type} [BEq α] [Hashable α] [LawfulBEq α]

/-- **What a head or a unique generator keeps in mind is the latest stretch of its pass**, over any
source and after any calls.  A call of `reset` makes it forget, also if it fails, so it leaves what
is in mind as it was if and only if there was nothing.  Each stretch has no more values than there
should be, and none of them twice; this is true of the whole pass as long as nothing had been handed
out in it when a reset failed. -/
theorem failed_reset_forgets (m : Machine σ α) (size : Nat) (explicit : Bool) (limit : Option Nat)
    (source : σ) (streams : Streams) (calls : List Machine.Call) :
    (let head := Head.machine m size
      let t := head.stretches calls (.new source) streams
      let after := head.reset t.run.state t.run.streams
      t.run.state.emitted = t.latest.length ∧
        (after.2.1.emitted = t.run.state.emitted ↔ t.latest = []) ∧
        (∀ stretch ∈ t.latest :: t.earlier, stretch.length ≤ size) ∧
        t.values.length ≤ size * (t.earlier.length + 1) ∧
        ((∀ stretch ∈ t.earlier, stretch = []) → t.values.length ≤ size)) ∧
      (let unique := Unique.machine m explicit
        let t := unique.stretches calls (.new source limit) streams
        let after := unique.reset t.run.state t.run.streams
        (t.run.state.wrapped.phase = .running →
          (∀ v, v ∈ t.run.state.seen ↔ v ∈ t.latest) ∧
          ((∀ v, v ∈ after.2.1.seen ↔ v ∈ t.run.state.seen) ↔ t.latest = [])) ∧
        (∀ stretch ∈ t.latest :: t.earlier, stretch.Nodup) ∧
        (∀ v, t.values.count v ≤ t.earlier.length + 1) ∧
        ((∀ stretch ∈ t.earlier, stretch = []) → t.values.Nodup)) := by
  constructor
  · intro head t after
    have ht : Machine.Stretched.Noted _ _ t := (Head.notes m size).stretches rfl calls streams
    have hall : ∀ stretch ∈ t.latest :: t.earlier, stretch.length ≤ size :=
      List.forall_mem_cons.mpr ⟨ht.latest, ht.earlier⟩
    refine ⟨ht.noted, ?_, hall, Stretched.length_values_le hall, fun hearlier => ?_⟩
    · rw [show after.2.1 = _ from Head.reset_snd m size t.run.state t.run.streams, ht.noted,
        eq_comm, List.length_eq_zero_iff]
    · rw [Stretched.values_eq_latest hearlier]
      exact ht.latest
  · intro unique t after
    have ht : Machine.Stretched.Noted _ _ t := (Unique.notes m explicit).stretches
      (s := .new source limit) ⟨nofun, fun _ => rfl⟩ calls streams
    have hall : ∀ stretch ∈ t.latest :: t.earlier, stretch.Nodup :=
      List.forall_mem_cons.mpr ⟨ht.latest, ht.earlier⟩
    refine ⟨fun hrunning => ⟨ht.noted.running hrunning, ?_⟩, hall,
      Stretched.count_values_le hall, fun hearlier => ?_⟩
    · rw [show after.2.1 = _ from Unique.reset_snd m explicit t.run.state t.run.streams]
      simp [ht.noted.running hrunning, List.eq_nil_iff_forall_not_mem]
    · rw [Stretched.values_eq_latest hearlier]
      exact ht.latest

/-- Only the first number can be drawn.  A reset fails, because the numbers of the next pass have no
weight, and the number is forgotten. -/
theorem failed_reset_forgets_firstOnly :
    let calls : List Machine.Call := [.init ⟨{}, 0⟩, .generate]
    let streams := Streams.start fun _ => .ofSeed 0
    let head := Head.machine firstOnly 1
    let t := head.stretches calls (.new (.new Iterated.new)) streams
    let unique := Unique.machine firstOnly false
    let t' := unique.stretches calls (.new (.new Iterated.new) none) streams
    ((head.reset t.run.state t.run.streams).1.isOk = false ∧
        (head.reset t.run.state t.run.streams).2.1.emitted ≠ t.run.state.emitted ∧
        t.earlier = [] ∧ t.values.length ≤ 1) ∧
      (unique.reset t'.run.state t'.run.streams).1.isOk = false ∧
        t'.run.state.wrapped.phase = .running ∧
        (¬ ∀ v, v ∈ (unique.reset t'.run.state t'.run.streams).2.1.seen ↔ v ∈ t'.run.state.seen) ∧
        t'.earlier = [] ∧ t'.values.Nodup := by
  obtain ⟨⟨-, hforgets, -, -, hvalues⟩, hrunning, -, -, hvalues'⟩ :=
    failed_reset_forgets firstOnly 1 false none (.new Iterated.new)
      (.start fun _ => .ofSeed 0) [.init ⟨{}, 0⟩, .generate]
  have hforgets' := (hrunning (by decide +kernel)).2
  exact ⟨⟨by decide +kernel, hforgets.not.mpr (by decide +kernel), by decide +kernel,
    hvalues (by decide +kernel)⟩, by decide +kernel, by decide +kernel,
    hforgets'.not.mpr (by decide +kernel), by decide +kernel, hvalues' (by decide +kernel)⟩

/-- **A failed reset lets values come again.**  The number that alone can be drawn is handed out
twice in one pass, by the head of a single value and by the generator of values that were not there
before. -/
theorem failed_reset_repeats :
    let calls : List Machine.Call := [.init ⟨{}, 0⟩, .generate, .reset, .generate]
    let streams := Streams.start fun _ => .ofSeed 0
    let t := (Head.machine firstOnly 1).stretches calls (.new (.new Iterated.new)) streams
    let unique := Unique.machine firstOnly false
    let t' := unique.stretches calls (.new (.new Iterated.new) none) streams
    t.latest = [0] ∧ t.earlier = [[0]] ∧ ¬ t.values.length ≤ 1 ∧
      t'.latest = [0] ∧ t'.earlier = [[0]] ∧ ¬ t'.values.Nodup := by
  decide +kernel

end SynthData
