import Mathlib.Data.List.Basic
import SynthData.Command.Output
import SynthData.Proofs.Text.Numerals

/-!
# Texts in cells

A text is `Unbroken` if it contains neither a tab nor a line feed.  Numbers, dates and times are
written without them, and JSON escapes both.  So the only values with a broken cell are the texts
that are broken themselves (`Value.unbroken_cell_iff`).
-/
namespace SynthData

/-- The character stands neither between cells nor at the end of a line. -/
def Solid (c : Char) : Prop := c ≠ '\t' ∧ c ≠ '\n'

instance (c : Char) : Decidable (Solid c) := inferInstanceAs (Decidable (_ ∧ _))

/-- The text fits into a cell. -/
def Unbroken (s : String) : Prop := ∀ c ∈ s.toList, Solid c

instance (s : String) : Decidable (Unbroken s) := List.decidableBAll Solid s.toList

@[simp]
theorem unbroken_append {s t : String} : Unbroken (s ++ t) ↔ Unbroken s ∧ Unbroken t := by
  simp only [Unbroken, String.toList_append, List.forall_mem_append]

@[simp]
theorem unbroken_ofList {cs : List Char} : Unbroken (String.ofList cs) ↔ ∀ c ∈ cs, Solid c := by
  simp only [Unbroken, String.toList_ofList]

/-- Joining adds nothing but separators. -/
theorem forall_mem_intercalate {P : Char → Prop} {sep : String} {pieces : List String}
    (hsep : ∀ c ∈ sep.toList, P c) (h : ∀ piece ∈ pieces, ∀ c ∈ piece.toList, P c) :
    ∀ c ∈ (sep.intercalate pieces).toList, P c := by
  induction pieces with
  | nil => exact nofun
  | cons piece pieces ih =>
    obtain ⟨hpiece, hrest⟩ := List.forall_mem_cons.mp h
    cases pieces with
    | nil => rwa [String.intercalate_singleton]
    | cons next pieces =>
      rw [String.intercalate_cons_cons, String.toList_append, String.toList_append,
        List.forall_mem_append, List.forall_mem_append]
      exact ⟨⟨hpiece, hsep⟩, ih hrest⟩

/-! ## Numbers -/

theorem solid_of_mem_digits {n : Nat} {c : Char} (h : c ∈ Text.digits n) : Solid c := by
  have hsolid := Text.of_isDigit (p := fun c => decide (Solid c)) (by decide)
    (Text.isDigit_of_mem_digits h)
  exact of_decide_eq_true hsolid

theorem unbroken_nat (n : Nat) : Unbroken (toString n) := by
  rw [Nat.toString_eq_ofList_toDigits, unbroken_ofList]
  exact fun c hc => solid_of_mem_digits hc

theorem unbroken_int (n : Int) : Unbroken (toString n) := by
  cases n with
  | ofNat n => exact unbroken_nat n
  | negSucc n => exact unbroken_append.mpr ⟨by decide, unbroken_nat (n + 1)⟩

theorem solid_of_mem_padding {count : Nat} {c : Char} (h : c ∈ List.replicate count '0') :
    Solid c := by
  rw [List.eq_of_mem_replicate h]
  decide

theorem unbroken_padded (width n : Nat) : Unbroken (Text.padded width n) := by
  rw [Text.padded, unbroken_ofList, List.forall_mem_append]
  exact ⟨fun c hc => solid_of_mem_padding hc, fun c hc => solid_of_mem_digits hc⟩

theorem unbroken_signText (negative : Bool) : Unbroken (signText negative) := by
  cases negative
  all_goals decide

theorem Decimal.unbroken_positional (d : Decimal) : Unbroken d.positional := by
  unfold positional
  dsimp only
  split
  · rw [unbroken_ofList, List.forall_mem_append]
    exact ⟨fun c hc => solid_of_mem_digits hc, fun c hc => solid_of_mem_padding hc⟩
  · have hall : ∀ c ∈ List.replicate ((-d.exponent).toNat + 1 - (Text.digits d.significand).length)
        '0' ++ Text.digits d.significand, Solid c :=
      List.forall_mem_append.mpr
        ⟨fun c hc => solid_of_mem_padding hc, fun c hc => solid_of_mem_digits hc⟩
    rw [unbroken_ofList, List.forall_mem_append, List.forall_mem_cons]
    exact ⟨fun c hc => hall c (List.mem_of_mem_take hc), by decide,
      fun c hc => hall c (List.mem_of_mem_drop hc)⟩

theorem Decimal.unbroken_scientific (d : Decimal) : Unbroken d.scientific := by
  have hdigits : ∀ c ∈ Text.digits d.significand, Solid c := fun c hc => solid_of_mem_digits hc
  unfold scientific
  dsimp only
  rw [unbroken_append, unbroken_append, unbroken_append, unbroken_ofList]
  refine ⟨⟨⟨?_, by decide⟩, ?_⟩, unbroken_nat _⟩
  · split
    · exact nofun
    · next x h => exact h ▸ hdigits
    · next x rest _ h =>
      rw [h, List.forall_mem_cons] at hdigits
      exact List.forall_mem_cons.mpr ⟨hdigits.1, List.forall_mem_cons.mpr ⟨by decide, hdigits.2⟩⟩
  · split
    all_goals decide

theorem unbroken_plainText (x : Float) : Unbroken (plainText x) := by
  unfold plainText
  split
  · decide
  · exact unbroken_append.mpr ⟨unbroken_signText _, by decide⟩
  · exact unbroken_append.mpr ⟨unbroken_signText _, Decimal.unbroken_positional _⟩

theorem unbroken_jsonText (x : Float) : Unbroken (jsonText x) := by
  unfold jsonText
  split
  · decide
  · decide
  · refine unbroken_append.mpr ⟨unbroken_signText _, ?_⟩
    split
    · decide
    · split
      · exact Decimal.unbroken_scientific _
      · split
        · exact unbroken_append.mpr ⟨Decimal.unbroken_positional _, by decide⟩
        · exact Decimal.unbroken_positional _

/-! ## Dates and times -/

theorem Date.unbroken_text (d : Date) : Unbroken d.text := by
  have hyear : Unbroken (yearText d.year) := by
    unfold yearText
    split
    · exact unbroken_padded _ _
    · refine unbroken_append.mpr ⟨?_, unbroken_padded _ _⟩
      split
      all_goals decide
  simp only [text, unbroken_append, hyear, unbroken_padded, true_and, and_true]
  decide

theorem TimeOfDay.unbroken_text (t : TimeOfDay) : Unbroken t.text := by
  have hfraction (nanos : Nat) : Unbroken (fractionText nanos) := by
    unfold fractionText
    split
    · decide
    · split
      · exact unbroken_append.mpr ⟨by decide, unbroken_padded _ _⟩
      · split
        all_goals exact unbroken_append.mpr ⟨by decide, unbroken_padded _ _⟩
  simp only [text, unbroken_append, hfraction, unbroken_padded, true_and, and_true]
  decide

theorem DateTime.unbroken_text (d : DateTime) : Unbroken d.text :=
  unbroken_append.mpr ⟨unbroken_append.mpr ⟨d.date.unbroken_text, by decide⟩, d.time.unbroken_text⟩

/-! ## JSON -/

theorem Json.solid_hexDigit {n : Nat} (h : n < 16) : Solid (hexDigit n) := by
  have hall : ∀ n < 16, Solid (hexDigit n) := by decide
  exact hall n h

theorem Json.solid_of_mem_escaped {c d : Char} (hc : Solid c) (h : d ∈ ['\\', c]) : Solid d := by
  obtain rfl | hd := List.mem_cons.mp h
  · decide
  · exact List.mem_singleton.mp hd ▸ hc

/-- **JSON escapes tabs and line feeds.** -/
theorem Json.solid_of_mem_escapeChar {c d : Char} (h : d ∈ escapeChar c) : Solid d := by
  unfold escapeChar at h
  split_ifs at h with _ _ hfeed _ htab _ _ hcontrol
  -- most characters have an escape of their own
  any_goals exact solid_of_mem_escaped (by decide) h
  · have hdigits : Solid (hexDigit (c.toNat / 16)) ∧ Solid (hexDigit (c.toNat % 16)) :=
      ⟨solid_hexDigit (by omega), solid_hexDigit (by omega)⟩
    simp only [List.mem_cons, List.not_mem_nil, or_false] at h
    obtain rfl | rfl | rfl | rfl | rfl | rfl := h
    · decide
    · decide
    · decide
    · decide
    · exact hdigits.1
    · exact hdigits.2
  · obtain rfl := List.mem_singleton.mp h
    exact ⟨htab, hfeed⟩

theorem Json.unbroken_quote (s : String) : Unbroken (quote s) := by
  have hinner : ∀ c ∈ s.toList.flatMap escapeChar, Solid c := by
    intro c hc
    obtain ⟨d, -, hd⟩ := List.mem_flatMap.mp hc
    exact solid_of_mem_escapeChar hd
  exact unbroken_append.mpr
    ⟨unbroken_append.mpr ⟨by decide, unbroken_ofList.mpr hinner⟩, by decide⟩

namespace Value

mutual

theorem unbroken_json : ∀ v : Value, Unbroken v.json
  | null => by decide
  | bool b => by cases b <;> decide
  | long v => unbroken_int v.toInt
  | double v => unbroken_jsonText v.toFloat
  | text s => Json.unbroken_quote s
  | date d => Json.unbroken_quote d.text
  | time t => Json.unbroken_quote t.text
  | dateTime d => Json.unbroken_quote d.isoText
  | record entries => by
    rw [json, unbroken_append, unbroken_append]
    have hcomma : Unbroken "," := by decide
    exact ⟨⟨by decide, forall_mem_intercalate hcomma (unbroken_jsonEntries entries)⟩, by decide⟩

theorem unbroken_jsonEntries :
    ∀ entries : List (String × Value), ∀ piece ∈ jsonEntries entries, Unbroken piece
  | [] => nofun
  | (name, v) :: rest => by
    rw [jsonEntries, List.forall_mem_cons, unbroken_append, unbroken_append]
    exact ⟨⟨⟨Json.unbroken_quote name, by decide⟩, unbroken_json v⟩, unbroken_jsonEntries rest⟩

end

/-- **A cell is broken only by a text that is broken itself.** -/
theorem unbroken_cell_iff (v : Value) : Unbroken v.cell ↔ ∀ s, v = .text s → Unbroken s := by
  cases v with
  | text s => exact ⟨fun h _ heq => by cases heq; exact h, fun h => h s rfl⟩
  | null => exact iff_of_true (by decide) nofun
  | bool b => exact iff_of_true (by cases b <;> decide) nofun
  | long v => exact iff_of_true (unbroken_int v.toInt) nofun
  | double v => exact iff_of_true (unbroken_plainText v.toFloat) nofun
  | date d => exact iff_of_true d.unbroken_text nofun
  | time t => exact iff_of_true t.unbroken_text nofun
  | dateTime d => exact iff_of_true d.unbroken_text nofun
  | record entries => exact iff_of_true (unbroken_json (.record entries)) nofun

end Value
end SynthData
