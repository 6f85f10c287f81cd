import SynthData.Proofs.Text.Split
import SynthData.Strategy.Named

/-!
# The grammar of calls

A call is written as a name without an opening parenthesis and, in parentheses, arguments without
commas, with commas between them and blanks anywhere around (`Call.Written`).  Only the first opening
parenthesis and the closing one at the very end have a meaning, so an argument may contain either of
them.  Every text with an opening parenthesis is written like this if there is a closing one at its
end (`Call.exists_written`), and what is read of it depends on the arguments only: each of them has
to be a number (`Call.readArguments_cases`).
-/
namespace SynthData.Call

open Text

/-! ## Arguments -/

/-- The number that is written between blanks. -/
def number? (piece : List Char) : Option Float :=
  (Decimal.readChars? (trimChars piece)).map Double.toFloat

theorem readArguments_cons (call : String) (piece : List Char) (pieces : List (List Char)) :
    readArguments call (piece :: pieces) =
      match number? piece with
      | none => .error (.badArgument (String.ofList (trimChars piece)) call)
      | some x => (readArguments call pieces).map (x :: ·) := by
  rw [readArguments, number?]
  rcases Decimal.readChars? (trimChars piece) with _ | x
  · rfl
  · rcases readArguments call pieces with _ | xs <;> rfl

/-- **Arguments are read if all of them are numbers**, and kept in their order.  Otherwise the first
one that is no number is reported. -/
theorem readArguments_cases (call : String) (pieces : List (List Char)) :
    (∃ xs, pieces.map number? = xs.map some ∧ readArguments call pieces = .ok xs) ∨
      ∃ good bad rest, pieces = good ++ bad :: rest ∧ (∀ piece ∈ good, (number? piece).isSome) ∧
        number? bad = none ∧ readArguments call pieces =
          .error (.badArgument (String.ofList (trimChars bad)) call) := by
  induction pieces with
  | nil => exact Or.inl ⟨[], rfl, rfl⟩
  | cons piece pieces ih =>
    rw [readArguments_cons]
    cases hnumber : number? piece with
    | none => exact Or.inr ⟨[], piece, pieces, rfl, List.forall_mem_nil _, hnumber, rfl⟩
    | some x =>
      rcases ih with ⟨xs, hxs, hok⟩ | ⟨good, bad, rest, rfl, hgood, hbad, herror⟩
      · exact Or.inl ⟨x :: xs, by rw [List.map_cons, hnumber, hxs, List.map_cons], by rw [hok]; rfl⟩
      · have hgood' : ∀ piece' ∈ piece :: good, (number? piece').isSome :=
          List.forall_mem_cons.mpr ⟨by rw [hnumber]; rfl, hgood⟩
        exact Or.inr ⟨piece :: good, bad, rest, rfl, hgood', hbad, by rw [herror]; rfl⟩

/-! ## Texts -/

/-- A text with an opening parenthesis is a name and the rest behind the first one. -/
theorem read_of_open {s : String} {name rest : List Char}
    (hcs : trimChars s.toList = name ++ '(' :: rest) (hname : '(' ∉ name) :
    read s = match beforeClosing? rest with
      | none => .error (.unclosedCall (trimBlanks s))
      | some inner =>
        if (trimChars inner).isEmpty then .ok ⟨String.ofList (trimChars name), []⟩
        else (readArguments (trimBlanks s) (splitChars ',' inner)).map
          (⟨String.ofList (trimChars name), ·⟩) := by
  have hpos : ∀ c ∈ name, decide (c ≠ '(') = true :=
    fun c hc => decide_eq_true fun heq => hname (heq ▸ hc)
  have hdrop : (name ++ '(' :: rest).dropWhile (· ≠ '(') = '(' :: rest := by
    rw [List.dropWhile_append_of_pos hpos]
    rfl
  have htake : (name ++ '(' :: rest).takeWhile (· ≠ '(') = name := by
    rw [List.takeWhile_append_of_pos hpos]
    exact List.append_nil name
  simp only [read, trimBlanks, hcs, hdrop, htake]
  cases beforeClosing? rest with
  | none => rfl
  | some inner =>
    by_cases hempty : (trimChars inner).isEmpty = true
    · simp only [hempty, if_true]
    · simp only [hempty]
      rcases readArguments _ (splitChars ',' inner) with fault | xs <;> rfl

/-- A text without one is a name without arguments. -/
theorem read_of_not_open {s : String} (h : '(' ∉ s.toList) : read s = .ok ⟨trimBlanks s, []⟩ := by
  have hopen : '(' ∉ trimChars s.toList := (mem_trimChars (by decide)).not.mpr h
  have hdrop : (trimChars s.toList).dropWhile (· ≠ '(') = [] :=
    List.dropWhile_eq_nil_iff.mpr fun c hc => decide_eq_true fun heq => hopen (heq ▸ hc)
  simp only [read, hdrop]
  rfl

theorem beforeClosing?_concat (cs : List Char) : beforeClosing? (cs ++ [')']) = some cs := by
  simp [beforeClosing?]

/-- **A call as it is written.** -/
structure Written where
  /-- The blanks before the name. -/
  before : List Char
  name : List Char
  arguments : List (List Char)
  /-- The blanks after the closing parenthesis. -/
  after : List Char
  before_blank : Blank before
  after_blank : Blank after
  not_open : '(' ∉ name
  ne_nil : arguments ≠ []
  not_comma : ∀ argument ∈ arguments, ',' ∉ argument

namespace Written

variable (t : Written)

/-- What stands between the parentheses. -/
def inner : List Char := [','].intercalate t.arguments

/-- The characters of the call. -/
def chars : List Char := t.before ++ (t.name ++ '(' :: (t.inner ++ [')'])) ++ t.after

/-- The text of the call. -/
def text : String := String.ofList t.chars

/-- There is nothing but blanks between the parentheses. -/
def Bare : Prop := ∃ blank, Blank blank ∧ t.arguments = [blank]

/-- The call without the blanks around it. -/
theorem trimChars_chars :
    trimChars t.chars = dropBlanks t.name ++ '(' :: (t.inner ++ [')']) := by
  have hname : Blank (t.name.takeWhile isBlank) := fun c hc => List.mem_takeWhile_imp hc
  have hsplit : t.name = t.name.takeWhile isBlank ++ dropBlanks t.name :=
    List.takeWhile_append_dropWhile.symm
  rw [chars, trimChars_surrounded t.before_blank t.after_blank, hsplit, List.append_assoc,
    trimChars_blank_append hname, ← hsplit]
  refine trimChars_of_ends ?first ?last
  case first =>
    intro c hc
    have hdropped := List.head?_dropWhile_not isBlank t.name
    rcases hname : dropBlanks t.name with _ | ⟨d, ds⟩
    · rw [hname] at hc
      obtain rfl : '(' = c := Option.some.inj hc
      decide
    · rw [hname] at hc
      obtain rfl : d = c := Option.some.inj hc
      rwa [show t.name.dropWhile isBlank = d :: ds from hname] at hdropped
  case last =>
    intro c hc
    rw [List.getLast?_append_cons, ← List.cons_append, List.getLast?_concat] at hc
    obtain rfl : ')' = c := Option.some.inj hc
    decide

/-- A comma is no blank, so there is a single argument if there are only blanks. -/
theorem isEmpty_inner : (trimChars t.inner).isEmpty = true ↔ t.Bare := by
  rw [List.isEmpty_iff, trimChars_eq_nil]
  constructor
  · intro hblank
    rcases harguments : t.arguments with _ | ⟨first, _ | ⟨second, rest⟩⟩
    · exact absurd harguments t.ne_nil
    · rw [inner, harguments, List.intercalate_singleton] at hblank
      exact ⟨first, hblank, harguments⟩
    · rw [inner, harguments, List.intercalate_cons_cons] at hblank
      have hcomma : isBlank ',' = true := hblank ',' (by simp)
      exact absurd hcomma (by decide)
  · rintro ⟨blank, hblank, hsingle⟩
    rwa [inner, hsingle, List.intercalate_singleton]

/-- The arguments are found again. -/
theorem splitChars_inner : splitChars ',' t.inner = t.arguments :=
  splitChars_intercalate t.ne_nil t.not_comma

/-- **A written call is its name and what is read of its arguments.** -/
theorem read_text : read t.text =
    if (trimChars t.inner).isEmpty then .ok ⟨String.ofList (trimChars t.name), []⟩
    else (readArguments (trimBlanks t.text) t.arguments).map
      (⟨String.ofList (trimChars t.name), ·⟩) := by
  have hname : '(' ∉ dropBlanks t.name := fun h => t.not_open (List.dropWhile_subset _ h)
  have htrim : trimChars t.text.toList = dropBlanks t.name ++ '(' :: (t.inner ++ [')']) := by
    rw [text, String.toList_ofList, trimChars_chars]
  rw [read_of_open htrim hname, beforeClosing?_concat, trimChars_dropBlanks]
  dsimp only
  rw [splitChars_inner]

end Written

/-- What closes the text closes what is behind the opening parenthesis. -/
theorem getLast?_eq_closing {name rest : List Char} :
    (name ++ '(' :: rest).getLast? = some ')' ↔ rest.getLast? = some ')' := by
  rw [List.getLast?_append_cons]
  cases rest with
  | nil => decide
  | cons c rest => rw [List.getLast?_cons_cons]

/-- **Every text with an opening parenthesis is a written call**, if there is a closing one at its
end. -/
theorem exists_written {s : String} (hopen : '(' ∈ s.toList)
    (hclosed : (trimChars s.toList).getLast? = some ')') : ∃ t : Written, t.text = s := by
  obtain ⟨before, after, hbefore, hafter, hs⟩ := exists_trim s.toList
  obtain ⟨name, rest, hsplit, hname⟩ :=
    List.eq_append_cons_of_mem ((mem_trimChars (by decide)).mpr hopen)
  rw [hsplit, getLast?_eq_closing] at hclosed
  have hinner : rest.dropLast ++ [')'] = rest := List.dropLast_append_getLast? _ hclosed
  refine ⟨⟨before, name, splitChars ',' rest.dropLast, after, hbefore, hafter, hname,
    splitChars_ne_nil _ _, fun argument h => (of_mem_splitChars h).1⟩, ?_⟩
  rw [Written.text, Written.chars, Written.inner, intercalate_splitChars, hinner, ← hsplit, ← hs,
    String.ofList_toList]

/-- Without a closing parenthesis, the call is refused. -/
theorem read_of_unclosed {s : String} (hopen : '(' ∈ s.toList)
    (hclosed : (trimChars s.toList).getLast? ≠ some ')') :
    read s = .error (.unclosedCall (trimBlanks s)) := by
  obtain ⟨name, rest, hsplit, hname⟩ :=
    List.eq_append_cons_of_mem ((mem_trimChars (by decide)).mpr hopen)
  rw [hsplit, Ne, getLast?_eq_closing] at hclosed
  rw [read_of_open hsplit hname, beforeClosing?, if_neg hclosed]

namespace Written

variable {t : Written}

theorem read_bare (h : t.Bare) : read t.text = .ok ⟨String.ofList (trimChars t.name), []⟩ := by
  rw [read_text, if_pos (t.isEmpty_inner.mpr h)]

/-- **A call is accepted if all arguments are numbers.**  Otherwise the first one that is not is
reported. -/
theorem read_cases (h : ¬ t.Bare) :
    (∃ xs, t.arguments.map number? = xs.map some ∧
        read t.text = .ok ⟨String.ofList (trimChars t.name), xs⟩) ∨
      ∃ good bad rest, t.arguments = good ++ bad :: rest ∧
        (∀ argument ∈ good, (number? argument).isSome) ∧ number? bad = none ∧
        read t.text =
          .error (.badArgument (String.ofList (trimChars bad)) (trimBlanks t.text)) := by
  rw [read_text, if_neg (t.isEmpty_inner.not.mpr h)]
  rcases readArguments_cases (trimBlanks t.text) t.arguments with
    ⟨xs, hxs, hok⟩ | ⟨good, bad, rest, harguments, hgood, hbad, herror⟩
  · exact Or.inl ⟨xs, hxs, by rw [hok]; rfl⟩
  · exact Or.inr ⟨good, bad, rest, harguments, hgood, hbad, by rw [herror]; rfl⟩

end Written

/-- Whatever is refused is refused as a configuration. -/
theorem kind_of_read {s : String} {fault : Fault} (h : read s = .error fault) :
    fault.kind = .config := by
  by_cases hopen : '(' ∈ s.toList
  · by_cases hclosed : (trimChars s.toList).getLast? = some ')'
    · obtain ⟨t, rfl⟩ := exists_written hopen hclosed
      by_cases hbare : t.Bare
      · rw [Written.read_bare hbare] at h
        cases h
      · rcases Written.read_cases hbare with ⟨xs, -, hok⟩ | ⟨-, bad, -, -, -, -, herror⟩
        · rw [hok] at h
          cases h
        · rw [herror] at h
          exact Except.error.inj h ▸ rfl
    · rw [read_of_unclosed hopen hclosed] at h
      exact Except.error.inj h ▸ rfl
  · rw [read_of_not_open hopen] at h
    cases h

/-- **What is read as a call.**  A written call with something between the parentheses is accepted
if and only if all its arguments, without the blanks around them, are numbers; the result is the name
without the blanks around it, and the numbers in their order.  With nothing but blanks between the
parentheses there are no arguments.  A text without an opening parenthesis is a name.  Any other text
is a written call or has no closing parenthesis at its end, and is refused then.  All refusals are
about the configuration. -/
theorem read_grammar :
    (∀ t : Written, ¬ t.Bare →
      ((∃ call, read t.text = .ok call) ↔
        ∀ argument ∈ t.arguments, (number? argument).isSome) ∧
      ∀ call, read t.text = .ok call → call.name = String.ofList (trimChars t.name) ∧
        call.arguments.map some = t.arguments.map number?) ∧
    (∀ t : Written, t.Bare → read t.text = .ok ⟨String.ofList (trimChars t.name), []⟩) ∧
    (∀ s : String, '(' ∉ s.toList → read s = .ok ⟨trimBlanks s, []⟩) ∧
    (∀ s : String, '(' ∈ s.toList → (trimChars s.toList).getLast? ≠ some ')' →
      read s = .error (.unclosedCall (trimBlanks s))) ∧
    (∀ s : String, '(' ∈ s.toList → (trimChars s.toList).getLast? = some ')' →
      ∃ t : Written, t.text = s) ∧
    ∀ s fault, read s = .error fault → fault.kind = .config := by
  refine ⟨fun t hbare => ?written, fun t => Written.read_bare, fun s => read_of_not_open,
    fun s => read_of_unclosed, fun s => exists_written, fun s fault => kind_of_read⟩
  case written =>
    rcases Written.read_cases hbare with ⟨xs, hxs, hok⟩ | ⟨good, bad, rest, hsplit, -, hbad, herror⟩
    · refine ⟨iff_of_true ⟨_, hok⟩ fun argument hargument => ?_, fun call hcall => ?_⟩
      · have hmem := List.mem_map_of_mem (f := number?) hargument
        rw [hxs] at hmem
        obtain ⟨x, -, hx⟩ := List.mem_map.mp hmem
        rw [← hx]
        rfl
      · obtain rfl := Except.ok.inj (hok.symm.trans hcall)
        exact ⟨rfl, hxs.symm⟩
    · have hmem : bad ∈ t.arguments := hsplit ▸ List.mem_append_right _ List.mem_cons_self
      refine ⟨iff_of_false ?_ fun hall => ?_, fun call hcall => ?_⟩
      · rintro ⟨call, hcall⟩
        rw [herror] at hcall
        cases hcall
      · have hsome := hall bad hmem
        rw [hbad] at hsome
        cases hsome
      · rw [herror] at hcall
        cases hcall

/-- A call with blanks, and its second argument. -/
def spaced (second : List Char) (h : ',' ∉ second) : Written where
  before := [' ']
  name := ['s', 't', 'e', 'p', ' ']
  arguments := [[' ', '2', ' '], second]
  after := ['\t', '\n']
  before_blank := by simp [Blank, isBlank]
  after_blank := by simp [Blank, isBlank]
  not_open := by decide
  ne_nil := List.cons_ne_nil _ _
  not_comma := by simpa using h

/-- Blanks are left out.  A parenthesis is part of an argument, which is no number then. -/
theorem read_grammar_spaced :
    (∃ call, read " step ( 2 ,-3.5)\t\n" = .ok call ∧ call.name = "step" ∧
        call.arguments = [2, -3.5]) ∧
      ¬ ∃ call, read " step ( 2 ,(3))\t\n" = .ok call := by
  obtain ⟨hwritten, -⟩ := read_grammar
  have hbare (second : List Char) (h : ',' ∉ second) : ¬ (spaced second h).Bare := by
    rintro ⟨blank, -, harguments⟩
    cases harguments
  have htwo : number? [' ', '2', ' '] = some 2 := rfl
  have hhalves : number? ['-', '3', '.', '5'] = some (-3.5) := rfl
  constructor
  · obtain ⟨haccepted, hresult⟩ := hwritten (spaced ['-', '3', '.', '5'] (by decide)) (hbare _ _)
    obtain ⟨call, hcall⟩ := haccepted.mpr (by simp [spaced, htwo, hhalves])
    obtain ⟨hname, harguments⟩ := hresult call hcall
    refine ⟨call, hcall, hname, ?_⟩
    simp only [spaced, List.map_cons, List.map_nil, htwo, hhalves] at harguments
    exact (List.map_inj_right fun _ _ => Option.some.inj).mp harguments
  · obtain ⟨haccepted, -⟩ := hwritten (spaced ['(', '3', ')'] (by decide)) (hbare _ _)
    intro hcall
    have hsome := haccepted.mp hcall ['(', '3', ')'] (by simp [spaced])
    cases hsome

end SynthData.Call
