import Mathlib.Tactic.IntervalCases
import SynthData.Proofs.Text.Split
import SynthData.Text.Basic

/-!
# Numbers as they are written

An unsigned number is written in decimal digits, after a plus sign or none, and there may be blanks
around it (`Numeral`).  Leading zeros are digits like any other.  A trimmed text is taken for a
number exactly if it is written like this, and the number is the one that the digits denote
(`natural?_trimChars`).  The digits of a number denote that number (`value_ofNat`).
-/
namespace SynthData.Text

variable {c : Char} {cs : List Char} {n : Nat}

/-! ## Digits -/

/-- What holds of the ten digits holds of every character that is a digit. -/
theorem of_isDigit {p : Char → Bool}
    (hp : ['0', '1', '2', '3', '4', '5', '6', '7', '8', '9'].all p) (h : isDigit c) : p c := by
  obtain ⟨hle, hge⟩ : '0' ≤ c ∧ c ≤ '9' := by
    by_contra hnot
    simp [isDigit, digit?, hnot] at h
  have hlow : 48 ≤ c.toNat := hle
  have hhigh : c.toNat ≤ 57 := hge
  refine List.all_eq_true.mp hp c ?_
  rw [← Char.ofNat_toNat c]
  generalize c.toNat = n at hlow hhigh
  interval_cases n <;> decide

theorem isDigit_of_mem_digits (h : c ∈ digits n) : isDigit c := by
  have hdigit : c.isDigit = true := Nat.isDigit_of_mem_toDigits (by decide) (by decide) h
  rw [Char.isDigit, Bool.and_eq_true, decide_eq_true_eq, decide_eq_true_eq] at hdigit
  have hrange : '0' ≤ c ∧ c ≤ '9' := hdigit
  rw [isDigit, digit?, if_pos hrange]
  rfl

/-- **Digits denote the number that they denote in base ten.** -/
theorem digitsValue_eq (h : ∀ c ∈ cs, isDigit c) : digitsValue cs = Nat.ofDigitChars 10 cs 0 := by
  refine List.foldl_ext _ _ 0 fun n c hc => ?_
  by_cases hrange : '0' ≤ c ∧ c ≤ '9'
  · rw [digit?, if_pos hrange, Option.getD_some]
  · have hdigit := h c hc
    rw [isDigit, digit?, if_neg hrange] at hdigit
    cases hdigit

/-! ## Numerals -/

/-- **A number as it is written.** -/
structure Numeral where
  /-- The blanks before the number. -/
  before : List Char
  /-- There is a plus sign. -/
  plus : Bool
  digits : List Char
  /-- The blanks after the number. -/
  after : List Char
  before_blank : Blank before
  after_blank : Blank after
  ne_nil : digits ≠ []
  isDigit : ∀ c ∈ digits, isDigit c

namespace Numeral

variable (t : Numeral)

/-- The number without the blanks around it. -/
def body : List Char := if t.plus then '+' :: t.digits else t.digits

/-- The characters of the number. -/
def chars : List Char := t.before ++ t.body ++ t.after

/-- The number that the digits denote. -/
def value : Nat := Nat.ofDigitChars 10 t.digits 0

/-- The digits of a number and nothing else. -/
def ofNat (n : Nat) : Numeral where
  before := []
  plus := false
  digits := Text.digits n
  after := []
  before_blank := blank_nil
  after_blank := blank_nil
  ne_nil := Nat.toDigits_ne_nil
  isDigit _ hc := isDigit_of_mem_digits hc

theorem chars_ofNat (n : Nat) : (ofNat n).chars = Text.digits n :=
  List.append_nil _

theorem value_ofNat (n : Nat) : (ofNat n).value = n :=
  Nat.ofDigitChars_toDigits (by decide) (by decide)

/-- What holds of the plus sign and the ten digits holds of all characters of the number. -/
theorem of_mem_body {p : Char → Bool}
    (hp : ['+', '0', '1', '2', '3', '4', '5', '6', '7', '8', '9'].all p) (h : c ∈ t.body) :
    p c := by
  rw [List.all_cons, Bool.and_eq_true] at hp
  obtain ⟨hplus, hdigits⟩ := hp
  have hmem : c = '+' ∨ c ∈ t.digits := by
    rw [body] at h
    split at h
    · exact List.mem_cons.mp h
    · exact Or.inr h
  rcases hmem with rfl | hdigit
  · exact hplus
  · exact of_isDigit hdigits (t.isDigit c hdigit)

/-- The blanks are cut off, and nothing else. -/
theorem trimChars_chars : trimChars t.chars = t.body := by
  have hsolid : ∀ c ∈ t.body, isBlank c = false := fun c hc => by
    simpa using t.of_mem_body (p := fun c => !isBlank c) (by decide) hc
  rw [chars, trimChars_surrounded t.before_blank t.after_blank, trimChars_of_forall hsolid]

/-- A number has no commas in it or around it. -/
theorem not_comma : ',' ∉ t.chars := by
  have hblank {cs : List Char} (h : Blank cs) : ',' ∉ cs := fun hmem =>
    absurd (h ',' hmem) (by decide)
  have hbody : ',' ∉ t.body := fun hmem =>
    absurd (t.of_mem_body (p := (· != ',')) (by decide) hmem) (by decide)
  rw [chars, List.mem_append, List.mem_append]
  exact not_or.mpr ⟨not_or.mpr ⟨hblank t.before_blank, hbody⟩, hblank t.after_blank⟩

/-- Numbers are read. -/
theorem natural?_body : natural? t.body = some t.value := by
  have hread : natural? t.body = some (digitsValue t.digits) := by
    have hall : t.digits.all Text.isDigit = true := List.all_eq_true.mpr t.isDigit
    by_cases hplus : t.plus = true
    · simp [natural?, body, hplus, t.ne_nil, hall]
    · obtain ⟨d, ds, hd⟩ := List.exists_cons_of_ne_nil t.ne_nil
      have hsign : d ≠ '+' := by
        have hdigit := t.isDigit d (hd ▸ List.mem_cons_self)
        simpa using of_isDigit (p := (· != '+')) (by decide) hdigit
      rw [hd] at hall ⊢
      simp [natural?, body, hplus, hd, hsign, hall]
  rw [hread, digitsValue_eq t.isDigit, value]

end Numeral

/-- What is read as a number is digits after a plus sign or none. -/
theorem exists_digits (h : natural? cs = some n) :
    ∃ (plus : Bool) (ds : List Char), cs = (if plus then '+' :: ds else ds) ∧ ds ≠ [] ∧
      (∀ c ∈ ds, isDigit c) ∧ n = digitsValue ds := by
  have hdigits {ds : List Char} (hds : (if !ds.isEmpty && ds.all isDigit then
      some (digitsValue ds) else none) = some n) :
      ds ≠ [] ∧ (∀ c ∈ ds, isDigit c) ∧ n = digitsValue ds := by
    split at hds
    · next hall =>
      rw [Bool.and_eq_true] at hall
      exact ⟨by simpa using hall.1, List.all_eq_true.mp hall.2, (Option.some.inj hds).symm⟩
    · cases hds
  unfold natural? at h
  dsimp only at h
  split at h
  · next rest => exact ⟨true, rest, rfl, hdigits h⟩
  · exact ⟨false, cs, rfl, hdigits h⟩

/-- **A trimmed text is a number exactly if a number is written there**, with any blanks around
it. -/
theorem natural?_trimChars :
    natural? (trimChars cs) = some n ↔ ∃ t : Numeral, t.chars = cs ∧ t.value = n := by
  constructor
  · intro h
    obtain ⟨before, after, hbefore, hafter, hcs⟩ := exists_trim cs
    obtain ⟨plus, ds, hbody, hne, hdigit, rfl⟩ := exists_digits h
    have hvalue := digitsValue_eq hdigit
    refine ⟨⟨before, plus, ds, after, hbefore, hafter, hne, hdigit⟩, ?_, hvalue.symm⟩
    rw [Numeral.chars, Numeral.body, ← hbody, ← hcs]
  · rintro ⟨t, rfl, rfl⟩
    rw [t.trimChars_chars, t.natural?_body]

end SynthData.Text
