import SynthData.Calendar.Granularity
import SynthData.Proofs.Text.Numerals

/-!
# Calendar steps as they are written

A calendar step is written as three numbers with commas between them (`Granularity.Written`).  Each
of the three may have blanks around it, a plus sign and leading zeros, so a step can be written in
many ways, and `Granularity.text` is one of them.

A text is read as a step exactly if the step is written there (`Granularity.read_eq_ok_iff`): the
numbers are its years, its months and its days, in this order.  Any other text is refused, either
because its parts are not three or because of the first part that is no number of 32 bits
(`Granularity.read_cases`).
-/
namespace SynthData.Granularity

open Text

/-! ## Components -/

/-- A part of a text is a component exactly if that number is written there. -/
theorem readPart_eq_ok_iff {whole : String} {part : List Char} {word : UInt32} :
    readPart whole (trimChars part) = .ok word ↔
      ∃ t : Numeral, t.chars = part ∧ t.value = word.toNat := by
  rw [← natural?_trimChars, readPart]
  cases natural? (trimChars part) with
  | none => exact iff_of_false nofun nofun
  | some n =>
    dsimp only
    rw [Option.some_inj]
    by_cases hfits : n < UInt32.size
    · rw [if_pos hfits, Except.ok.injEq, ← UInt32.toNat_inj, UInt32.toNat_ofNat_of_lt' hfits]
    · rw [if_neg hfits]
      refine iff_of_false nofun fun heq => hfits ?_
      rw [heq]
      exact word.toNat_lt

/-- A part that is refused is named. -/
theorem readPart_eq_error {whole : String} {part : List Char} {fault : Fault}
    (h : readPart whole part = .error fault) :
    fault = .granularityNumber (String.ofList part) whole := by
  unfold readPart at h
  split at h
  · split at h
    · cases h
    · exact (Except.error.inj h).symm
  · exact (Except.error.inj h).symm

/-! ## Texts -/

/-- **A calendar step as it is written.** -/
structure Written where
  years : Numeral
  months : Numeral
  days : Numeral

namespace Written

variable (t : Written)

/-- The parts between the commas. -/
def parts : List (List Char) := [t.years.chars, t.months.chars, t.days.chars]

/-- The text of the step. -/
def text : String := String.ofList ([','].intercalate t.parts)

/-- The numbers are the components of a step. -/
structure Denotes (g : Granularity) : Prop where
  years : t.years.value = g.years.toNat
  months : t.months.value = g.months.toNat
  days : t.days.value = g.days.toNat

/-- The parts are found again. -/
theorem splitChars_text : splitChars ',' t.text.toList = t.parts := by
  rw [text, String.toList_ofList]
  refine splitChars_intercalate (List.cons_ne_nil _ _) fun part hpart => ?_
  simp only [parts, List.mem_cons, List.not_mem_nil, or_false] at hpart
  rcases hpart with rfl | rfl | rfl
  · exact t.years.not_comma
  · exact t.months.not_comma
  · exact t.days.not_comma

/-- The components of a step, without blanks, signs and leading zeros. -/
def ofStep (g : Granularity) : Written :=
  ⟨.ofNat g.years.toNat, .ofNat g.months.toNat, .ofNat g.days.toNat⟩

theorem denotes_ofStep (g : Granularity) : (ofStep g).Denotes g :=
  ⟨Numeral.value_ofNat _, Numeral.value_ofNat _, Numeral.value_ofNat _⟩

theorem text_ofStep (g : Granularity) : (ofStep g).text = g.text := by
  have hcomma : (toString ",").toList = [','] := rfl
  rw [← String.toList_inj]
  simp [text, parts, ofStep, Numeral.chars_ofNat, Text.digits, Granularity.text,
    hcomma]

end Written

variable {s : String} {g : Granularity} {fault : Fault}

/-- A text whose parts are not three is refused as a whole. -/
theorem read_of_length_ne (h : (splitChars ',' s.toList).length ≠ 3) :
    read s = .error (.granularityForm s) := by
  unfold read
  split
  · next years months days hparts =>
    have hlength := congrArg List.length hparts
    rw [List.length_map] at hlength
    exact absurd hlength h
  · rfl

/-- A text of three parts is read part by part. -/
theorem read_of_parts {years months days : List Char}
    (h : splitChars ',' s.toList = [years, months, days]) :
    read s = do
      let years ← readPart s (trimChars years)
      let months ← readPart s (trimChars months)
      let days ← readPart s (trimChars days)
      return ⟨years, months, days⟩ := by
  rw [read, h]
  rfl

/-- Three parts are read as a step exactly if each of them is read as its component. -/
theorem read_of_parts_eq_ok_iff {years months days : List Char}
    (h : splitChars ',' s.toList = [years, months, days]) :
    read s = .ok g ↔ readPart s (trimChars years) = .ok g.years ∧
      readPart s (trimChars months) = .ok g.months ∧ readPart s (trimChars days) = .ok g.days := by
  rw [read_of_parts h]
  rcases readPart s (trimChars years) with _ | y
  · exact iff_of_false nofun (nomatch ·.1)
  rcases readPart s (trimChars months) with _ | m
  · exact iff_of_false nofun (nomatch ·.2.1)
  rcases readPart s (trimChars days) with _ | d
  · exact iff_of_false nofun (nomatch ·.2.2)
  constructor
  · rintro ⟨⟩
    exact ⟨rfl, rfl, rfl⟩
  · rintro ⟨⟨⟩, ⟨⟩, ⟨⟩⟩
    rfl

/-- **A text is read as a step exactly if the step is written there.** -/
theorem read_eq_ok_iff : read s = .ok g ↔ ∃ t : Written, t.text = s ∧ t.Denotes g := by
  constructor
  · intro h
    have hlength : (splitChars ',' s.toList).length = 3 := by
      by_contra hne
      rw [read_of_length_ne hne] at h
      cases h
    obtain ⟨years, months, days, hparts⟩ := List.length_eq_three.mp hlength
    obtain ⟨hyears, hmonths, hdays⟩ := (read_of_parts_eq_ok_iff hparts).mp h
    obtain ⟨y, rfl, hy⟩ := readPart_eq_ok_iff.mp hyears
    obtain ⟨m, rfl, hm⟩ := readPart_eq_ok_iff.mp hmonths
    obtain ⟨d, rfl, hd⟩ := readPart_eq_ok_iff.mp hdays
    refine ⟨⟨y, m, d⟩, ?_, hy, hm, hd⟩
    rw [Written.text, Written.parts, ← hparts, intercalate_splitChars, String.ofList_toList]
  · rintro ⟨t, rfl, hdenotes⟩
    apply (read_of_parts_eq_ok_iff t.splitChars_text).mpr
    exact ⟨readPart_eq_ok_iff.mpr ⟨t.years, rfl, hdenotes.years⟩,
      readPart_eq_ok_iff.mpr ⟨t.months, rfl, hdenotes.months⟩,
      readPart_eq_ok_iff.mpr ⟨t.days, rfl, hdenotes.days⟩⟩

/-- **Why a text is refused**: its parts are not three, or one of them is not a number of 32 bits.
Of several such parts the first one is reported. -/
theorem read_eq_error (h : read s = .error fault) :
    ((splitChars ',' s.toList).length ≠ 3 ∧ fault = .granularityForm s) ∨
      ∃ good bad rest, splitChars ',' s.toList = good ++ bad :: rest ∧
        (∀ part ∈ good, ∃ word, readPart s (trimChars part) = .ok word) ∧
        (∀ word, readPart s (trimChars bad) ≠ .ok word) ∧
        fault = .granularityNumber (String.ofList (trimChars bad)) s := by
  by_cases hlength : (splitChars ',' s.toList).length = 3
  · right
    obtain ⟨years, months, days, hparts⟩ := List.length_eq_three.mp hlength
    rw [read_of_parts hparts] at h
    rw [hparts]
    rcases hyears : readPart s (trimChars years) with _ | y
    · rw [hyears] at h
      obtain rfl := Except.error.inj h
      exact ⟨[], years, [months, days], rfl, List.forall_mem_nil _, by simp [hyears],
        readPart_eq_error hyears⟩
    rcases hmonths : readPart s (trimChars months) with _ | m
    · rw [hyears, hmonths] at h
      obtain rfl := Except.error.inj h
      exact ⟨[years], months, [days], rfl, by simp [hyears], by simp [hmonths],
        readPart_eq_error hmonths⟩
    rcases hdays : readPart s (trimChars days) with _ | d
    · rw [hyears, hmonths, hdays] at h
      obtain rfl := Except.error.inj h
      exact ⟨[years, months], days, [], rfl, by simp [hyears, hmonths], by simp [hdays],
        readPart_eq_error hdays⟩
    rw [hyears, hmonths, hdays] at h
    cases h
  · rw [read_of_length_ne hlength] at h
    exact Or.inl ⟨hlength, (Except.error.inj h).symm⟩

/-- **Reading inverts writing.**  The text of a step is read as that step.  A text is read as a step
exactly if its parts are three, written as numbers with blanks, a plus sign and leading zeros as one
likes, and are the years, the months and the days of the step, which have 32 bits each.  All other
texts are refused as configurations. -/
theorem read_inverts_text :
    (∀ g : Granularity, read g.text = .ok g) ∧
    (∀ s g, read s = .ok g ↔ ∃ t : Written, t.text = s ∧ t.Denotes g) ∧
    ∀ s, (∃ g, ∃ t : Written, t.text = s ∧ t.Denotes g) ∨
      ∃ fault, read s = .error fault ∧ fault.kind = .config := by
  refine ⟨fun g => ?written, fun s g => read_eq_ok_iff, fun s => ?refused⟩
  case written =>
    exact read_eq_ok_iff.mpr ⟨.ofStep g, Written.text_ofStep g, Written.denotes_ofStep g⟩
  case refused =>
    cases hread : read s with
    | ok g => exact Or.inl ⟨g, read_eq_ok_iff.mp hread⟩
    | error fault =>
      refine Or.inr ⟨fault, rfl, ?_⟩
      rcases read_eq_error hread with ⟨-, rfl⟩ | ⟨-, bad, -, -, -, -, rfl⟩
      · rfl
      · rfl

/-- A step may be written with blanks, a plus sign and zeros; its components have 32 bits. -/
example : read " +0, 007 ,\t4294967295" = .ok ⟨0, 7, 4294967295⟩ ∧
    read "1,2,4294967296" = .error (.granularityNumber "4294967296" "1,2,4294967296") :=
  ⟨rfl, rfl⟩

end SynthData.Granularity
