import SynthData.Value.Basic

/-!
# Equality of values and entries of records

Two values are the same in the sense of `Value.same` exactly when they are equal,
records with all their entries included.  So what is known of lists without
duplicates, and of sets of values, holds under `Value.same` as well.

In particular values that are the same are of one kind (`Value.kind_eq_of_same`) and enter a
hash by the same words (`Value.feed_eq_of_same`).

A record is made of entries by putting one after the other in its place.  If no name occurs twice,
nothing is replaced, and the record has the entries it was made of (`Value.field?_ofEntries`).
-/
namespace SynthData.Value

mutual

theorem eq_of_same : ∀ a b : Value, same a b = true → a = b
  | null, b => by cases b <;> simp [same]
  | bool x, b => by cases b <;> simp [same]
  | long x, b => by cases b <;> simp [same]
  | double x, b => by cases b <;> simp [same]
  | text x, b => by cases b <;> simp [same]
  | date x, b => by cases b <;> simp [same]
  | time x, b => by cases b <;> simp [same]
  | dateTime x, b => by cases b <;> simp [same]
  | record as, b => by
    intro h
    cases b with
    | record bs => rw [eq_of_sameEntries as bs (by simpa [same] using h)]
    | _ => simp [same] at h

theorem eq_of_sameEntries :
    ∀ as bs : List (String × Value), sameEntries as bs = true → as = bs
  | [], bs => by cases bs <;> simp [sameEntries]
  | (name, a) :: as, [] => by simp [sameEntries]
  | (name, a) :: as, (name', b) :: bs => by
    intro h
    simp only [sameEntries, Bool.and_eq_true, beq_iff_eq] at h
    obtain ⟨⟨hname, hsame⟩, hrest⟩ := h
    rw [hname, eq_of_same a b hsame, eq_of_sameEntries as bs hrest]

end

mutual

theorem same_self : ∀ a : Value, same a a = true
  | null | bool _ | long _ | double _ | text _ | date _ | time _ | dateTime _ => by simp [same]
  | record entries => by simpa [same] using sameEntries_self entries

theorem sameEntries_self : ∀ entries : List (String × Value), sameEntries entries entries = true
  | [] => by simp [sameEntries]
  | (name, a) :: entries => by simp [sameEntries, same_self a, sameEntries_self entries]

end

/-- **Values are the same exactly when they are equal.** -/
theorem same_iff {a b : Value} : same a b = true ↔ a = b :=
  ⟨eq_of_same a b, fun h => h ▸ same_self a⟩

instance : LawfulBEq Value where
  eq_of_beq h := same_iff.mp h
  rfl := same_self _

instance : DecidableEq Value := fun _ _ => decidable_of_iff _ same_iff

/-- Values that are pairwise different are pairwise not the same. -/
theorem pairwise_not_same {list : List Value} (h : list.Nodup) :
    list.Pairwise fun a b => a.same b = false :=
  h.imp fun hne => Bool.eq_false_iff.mpr fun hsame => hne (same_iff.mp hsame)

/-! ## Kinds and words -/

/-- The kinds of values. -/
inductive Kind where
  | null
  | bool
  | long
  | double
  | text
  | date
  | time
  | dateTime
  | record
deriving DecidableEq

/-- The kind of a value. -/
def kind : Value → Kind
  | null => .null
  | bool _ => .bool
  | long _ => .long
  | double _ => .double
  | text _ => .text
  | date _ => .date
  | time _ => .time
  | dateTime _ => .dateTime
  | record _ => .record

variable {a b : Value}

theorem kind_eq_of_same (h : a.same b = true) : a.kind = b.kind := by
  rw [same_iff.mp h]

/-- **Values that are the same enter a hash by the same words.** -/
theorem feed_eq_of_same (h : a.same b = true) : a.feed = b.feed := by
  rw [same_iff.mp h]

/-- **Sameness is an equivalence relation** on all values. -/
theorem same_equivalence : Equivalence fun a b : Value => a.same b = true where
  refl := same_self
  symm h := same_iff.mpr (same_iff.mp h).symm
  trans h h' := same_iff.mpr ((same_iff.mp h).trans (same_iff.mp h'))

/-- A double that is not a number is the same as itself, and the zeros differ. -/
example : (double ⟨0x7FF8000000000000⟩).same (double ⟨0x7FF8000000000000⟩) = true ∧
    (double ⟨0x0000000000000000⟩).same (double ⟨0x8000000000000000⟩) = false := by
  decide

/-! ## Entries of records -/

theorem find?_insertEntry (key name : String) (v : Value) (entries : List (String × Value)) :
    find? key (insertEntry name v entries) = if key = name then some v else find? key entries := by
  induction entries with
  | nil => rfl
  | cons entry rest ih =>
    obtain ⟨name', v'⟩ := entry
    unfold insertEntry
    split
    · rename_i heq
      subst heq
      by_cases hkey : key = name
      · simp [find?, hkey]
      · simp [find?, hkey]
    · rename_i hne
      split
      · rfl
      · by_cases hkey : key = name'
        · have hother : key ≠ name := fun h => hne (h.symm.trans hkey)
          simp [find?, hkey, hkey ▸ hother]
        · simp [find?, hkey, ih]

theorem find?_eq_none {key : String} {entries : List (String × Value)}
    (h : key ∉ entries.map Prod.fst) : find? key entries = none := by
  induction entries with
  | nil => rfl
  | cons entry rest ih =>
    rw [List.map_cons, List.mem_cons, not_or] at h
    rw [find?, if_neg h.1, ih h.2]

/-- Entries with different names can be found under their names. -/
theorem find?_eq_some {entries : List (String × Value)} (h : (entries.map Prod.fst).Nodup)
    {key : String} {v : Value} : find? key entries = some v ↔ (key, v) ∈ entries := by
  induction entries with
  | nil => exact ⟨nofun, nofun⟩
  | cons entry rest ih =>
    obtain ⟨name, v'⟩ := entry
    obtain ⟨hnew, hrest⟩ := List.nodup_cons.mp h
    rw [find?, List.mem_cons, Prod.mk.injEq]
    by_cases hkey : key = name
    · subst hkey
      have hnone : (key, v) ∉ rest := fun hmem => hnew (List.mem_map.mpr ⟨(key, v), hmem, rfl⟩)
      simp [hnone, eq_comm]
    · simp [hkey, ih hrest]

/-- Entries that are put in their places are found before those that were there. -/
theorem find?_foldl_insertEntry {entries : List (String × Value)}
    (h : (entries.map Prod.fst).Nodup) (key : String) (sorted : List (String × Value)) :
    find? key (entries.foldl (fun sorted entry => insertEntry entry.1 entry.2 sorted) sorted) =
      (find? key entries).or (find? key sorted) := by
  induction entries generalizing sorted with
  | nil => rfl
  | cons entry rest ih =>
    obtain ⟨name, v⟩ := entry
    obtain ⟨hnew, hrest⟩ := List.nodup_cons.mp h
    rw [List.foldl_cons, ih hrest, find?_insertEntry, find?]
    by_cases hkey : key = name
    · subst hkey
      simp [find?_eq_none hnew]
    · simp [hkey]

/-- **A record of entries with different names has these entries and no others.** -/
theorem field?_ofEntries {entries : List (String × Value)} (h : (entries.map Prod.fst).Nodup)
    {name : String} {v : Value} :
    (ofEntries entries).field? name = some v ↔ (name, v) ∈ entries := by
  rw [ofEntries, field?, find?_foldl_insertEntry h, find?, Option.or_none, find?_eq_some h]

end SynthData.Value
