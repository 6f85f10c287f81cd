import SynthData.Proofs.Generator.Occurrences
import SynthData.Proofs.Value.Basic

/-!
# What a unique generator remembers

A unique generator puts every value that it hands out into a set, and throws the set away when it is
reset or closed (`Machine.inserted`).  Of the equality of values it needs that it is an equivalence
relation, and of their hashes that equal values have equal ones.  Then the set contains a value
exactly if an equal one was put in, after every history of calls (`Unique.recalls_run`).

Values in the sense of `Value` meet both requirements: their equality compares doubles by their bits
and records entry by entry, and equal values enter a hash by the same words
(`Unique.contains_iff_inserted`).
-/
namespace SynthData

open Machine (valueOf)

variable {σ α : Type}

namespace Machine

/-- What a call makes of the values that have been put in. -/
def insertedBy (m : Machine σ α) (r : Run σ α) (values : List α) : Call → List α
  | .init _ => values
  | .generate => values ++ (valueOf (m.generate r.state).1).toList
  | .reset | .close => []

/-- The values that have been handed out by the calls of a run since the last reset or end of the
generator, after those that were handed out before the run. -/
def inserted (m : Machine σ α) : List Call → Run σ α → List α → List α
  | [], _, values => values
  | c :: calls, r, values => inserted m calls (m.call r c) (m.insertedBy r values c)

end Machine

namespace Unique

variable [BEq α] [Hashable α]

/-- The set contains the values that are equal to one of a list. -/
def Recalls (u : Unique σ α) (values : List α) : Prop :=
  ∀ v, u.seen.contains v = true ↔ ∃ w ∈ values, (w == v) = true

variable {m : Machine σ α} {explicit : Bool} {u : Unique σ α} {values : List α}

theorem recalls_nil (h : u.seen = ∅) : u.Recalls [] := by
  intro v
  rw [h, Std.HashSet.contains_empty]
  simp

section Lawful

variable [EquivBEq α] [LawfulHashable α]

/-- A value that is handed out is put in, and nothing else is. -/
theorem Recalls.generate (h : u.Recalls values) :
    ((machine m explicit).generate u).2.Recalls
      (values ++ (valueOf ((machine m explicit).generate u).1).toList) := by
  rw [generate_eq]
  intro v
  obtain ⟨-, ⟨hnone, hseen⟩ | ⟨w, hanswer, -, -, hseen⟩⟩ :=
    seek_sought m u.limit (u.limit - 1) u.seen u.wrapped
  · have hvalue : valueOf (seek m u.limit (u.limit - 1) u.seen u.wrapped).1 = none := by
      by_contra hsome
      obtain ⟨w, hw⟩ := Option.ne_none_iff_exists'.mp hsome
      exact hnone w (Machine.valueOf_eq_some.mp hw)
    rw [hseen, hvalue, Option.toList_none, List.append_nil]
    exact h v
  · rw [hseen, hanswer, Std.HashSet.contains_insert, Bool.or_eq_true, h v]
    simp [valueOf, or_comm, or_and_right, exists_or]

/-- **What a call does to the set**: it puts in what is handed out, and a reset or the end of the
generator throws it away.  A generator that is initialized keeps the set. -/
theorem Recalls.call {r : Run (Unique σ α) α} (h : r.state.Recalls values)
    (c : Machine.Call) :
    ((machine m explicit).call r c).state.Recalls
      ((machine m explicit).insertedBy r values c) := by
  cases c with
  | init context => exact h
  | generate =>
    rw [(Machine.call_generate r).1]
    exact h.generate
  | reset =>
    apply recalls_nil
    show ((machine m explicit).reset r.state r.streams).2.1.seen = ∅
    rw [reset_snd]
  | close => exact recalls_nil rfl

/-- **The set contains a value exactly if an equal one was put in**, after all calls of a run. -/
theorem recalls_run (calls : List Machine.Call) {r : Run (Unique σ α) α}
    (h : r.state.Recalls values) :
    ((machine m explicit).run calls r).state.Recalls
      ((machine m explicit).inserted calls r values) := by
  induction calls generalizing r values with
  | nil => exact h
  | cons c calls ih => exact ih (h.call c)

end Lawful

/-- **The uniqueness check knows equal values.**  Sameness is an equivalence relation on all values,
only values of one kind are the same, and values that are the same enter a hash by the same words.
So after any history of calls of a unique generator, whatever its source does, the set of the values
seen contains a value exactly if one that is the same was put in. -/
theorem contains_iff_inserted (m : Machine σ Value) (explicit : Bool) (limit : Option Nat)
    (source : σ) (streams : Streams) :
    (Equivalence fun a b : Value => a.same b = true) ∧
    (∀ a b : Value, a.kind ≠ b.kind → a.same b = false) ∧
    (∀ a b : Value, a.same b = true → a.feed = b.feed) ∧
    ∀ (calls : List Machine.Call) (v : Value),
      let unique := machine m explicit
      let start : Run (Unique σ Value) Value := .start (new source limit) streams
      (unique.run calls start).state.seen.contains v = true ↔
        ∃ w ∈ unique.inserted calls start [], w.same v = true := by
  refine ⟨Value.same_equivalence, fun a b => ?kinds, fun a b => Value.feed_eq_of_same,
    fun calls => ?seen⟩
  case kinds =>
    intro hkind
    by_contra hsame
    exact hkind (Value.kind_eq_of_same (Bool.eq_true_of_not_eq_false hsame))
  case seen =>
    exact recalls_run calls (recalls_nil rfl)

end Unique
end SynthData
