import Mathlib.Data.List.DropRight
import SynthData.Text.Basic

/-!
# Splitting and trimming

`splitChars` undoes the joining of pieces, as long as none of them contains the separator
(`splitChars_intercalate`).  It cannot do more than that: no piece that it finds contains the
separator (`of_mem_splitChars`), and the pieces joined again are the text
(`intercalate_splitChars`).

A text is what is left of it when it is trimmed, with blanks around it (`exists_trim`), and these
make no difference (`trimChars_surrounded`).  What neither begins nor ends with a blank is kept
(`trimChars_of_ends`).
-/
namespace SynthData.Text

variable {sep c : Char} {cs piece rest : List Char}

/-! ## Pieces -/

theorem splitChars_cons_self (sep : Char) (cs : List Char) :
    splitChars sep (sep :: cs) = [] :: splitChars sep cs :=
  if_pos rfl

theorem splitChars_cons_of_ne (h : c ≠ sep) (cs : List Char) :
    ∃ piece pieces, splitChars sep cs = piece :: pieces ∧
      splitChars sep (c :: cs) = (c :: piece) :: pieces := by
  rcases hcs : splitChars sep cs with _ | ⟨piece, pieces⟩
  · exact absurd hcs (splitChars_ne_nil sep cs)
  · refine ⟨piece, pieces, rfl, ?_⟩
    rw [splitChars, if_neg h, hcs]

/-- A text without separators is a single piece. -/
theorem splitChars_of_not_mem (h : sep ∉ cs) : splitChars sep cs = [cs] := by
  induction cs with
  | nil => rfl
  | cons c cs ih =>
    rw [List.mem_cons, not_or] at h
    obtain ⟨piece, pieces, hcs, hsplit⟩ := splitChars_cons_of_ne (Ne.symm h.1) cs
    rw [ih h.2] at hcs
    obtain ⟨rfl, rfl⟩ := List.cons.inj hcs
    exact hsplit

/-- The first piece goes as far as the first separator. -/
theorem splitChars_append (h : sep ∉ piece) (rest : List Char) :
    splitChars sep (piece ++ sep :: rest) = piece :: splitChars sep rest := by
  induction piece with
  | nil => exact splitChars_cons_self sep rest
  | cons c piece ih =>
    rw [List.mem_cons, not_or] at h
    obtain ⟨piece', pieces, hcs, hsplit⟩ :=
      splitChars_cons_of_ne (Ne.symm h.1) (piece ++ sep :: rest)
    rw [ih h.2] at hcs
    obtain ⟨rfl, rfl⟩ := List.cons.inj hcs
    exact hsplit

/-- **No piece contains the separator**, and there is nothing new in it. -/
theorem of_mem_splitChars (h : piece ∈ splitChars sep cs) :
    sep ∉ piece ∧ ∀ c ∈ piece, c ∈ cs := by
  induction cs generalizing piece with
  | nil =>
    obtain rfl : piece = [] := List.mem_singleton.mp h
    exact ⟨List.not_mem_nil, nofun⟩
  | cons c cs ih =>
    by_cases hc : c = sep
    · rw [hc, splitChars_cons_self, List.mem_cons] at h
      obtain rfl | h := h
      · exact ⟨List.not_mem_nil, nofun⟩
      · exact ⟨(ih h).1, fun d hd => List.mem_cons_of_mem _ ((ih h).2 d hd)⟩
    · obtain ⟨first, pieces, hcs, hsplit⟩ := splitChars_cons_of_ne hc cs
      rw [hcs] at ih
      rw [hsplit, List.mem_cons] at h
      obtain rfl | h := h
      · obtain ⟨hsep, hmem⟩ := ih List.mem_cons_self
        refine ⟨fun hin => ?_, fun d hd => ?_⟩
        · obtain heq | hin := List.mem_cons.mp hin
          · exact hc heq.symm
          · exact hsep hin
        · obtain rfl | hd := List.mem_cons.mp hd
          · exact List.mem_cons_self
          · exact List.mem_cons_of_mem _ (hmem d hd)
      · obtain ⟨hsep, hmem⟩ := ih (List.mem_cons_of_mem _ h)
        exact ⟨hsep, fun d hd => List.mem_cons_of_mem _ (hmem d hd)⟩

/-- **Pieces that have been joined are found again**, if none of them contains the separator. -/
theorem splitChars_intercalate {pieces : List (List Char)} (hne : pieces ≠ [])
    (h : ∀ piece ∈ pieces, sep ∉ piece) : splitChars sep ([sep].intercalate pieces) = pieces := by
  induction pieces with
  | nil => exact absurd rfl hne
  | cons piece pieces ih =>
    obtain ⟨hpiece, hrest⟩ := List.forall_mem_cons.mp h
    cases pieces with
    | nil =>
      rw [List.intercalate_singleton]
      exact splitChars_of_not_mem hpiece
    | cons next pieces =>
      rw [List.intercalate_cons_cons, List.append_assoc]
      exact (splitChars_append hpiece _).trans (congrArg _ (ih (List.cons_ne_nil _ _) hrest))

/-- **The pieces of a text are joined to that text.** -/
theorem intercalate_splitChars (sep : Char) (cs : List Char) :
    [sep].intercalate (splitChars sep cs) = cs := by
  induction cs with
  | nil => rfl
  | cons c cs ih =>
    rcases hcs : splitChars sep cs with _ | ⟨piece, pieces⟩
    · exact absurd hcs (splitChars_ne_nil sep cs)
    · by_cases hc : c = sep
      · rw [hc, splitChars_cons_self, hcs, List.intercalate_cons_cons, ← hcs, ih]
        rfl
      · rw [splitChars, if_neg hc, hcs]
        rw [hcs] at ih
        cases pieces with
        | nil => simpa using ih
        | cons next pieces => simpa [List.intercalate_cons_cons] using ih

/-! ## Blanks -/

/-- A text of blanks only. -/
def Blank (cs : List Char) : Prop := ∀ c ∈ cs, isBlank c = true

theorem blank_nil : Blank [] := List.forall_mem_nil _

variable {before after : List Char}

theorem dropBlanks_of_head (h : ∀ c ∈ cs.head?, isBlank c = false) : dropBlanks cs = cs := by
  cases cs with
  | nil => rfl
  | cons c cs => simp [dropBlanks, h c rfl]

/-- **A text without blanks at its ends is kept.** -/
theorem trimChars_of_ends (hfirst : ∀ c ∈ cs.head?, isBlank c = false)
    (hlast : ∀ c ∈ cs.getLast?, isBlank c = false) : trimChars cs = cs := by
  rw [← List.head?_reverse] at hlast
  rw [trimChars, dropBlanks_of_head hfirst, dropBlanks_of_head hlast, List.reverse_reverse]

/-- A text without blanks has none to cut off. -/
theorem trimChars_of_forall (h : ∀ c ∈ cs, isBlank c = false) : trimChars cs = cs :=
  trimChars_of_ends (fun c hc => h c (List.mem_of_mem_head? hc))
    fun c hc => h c (List.mem_of_mem_getLast? hc)

theorem dropBlanks_blank_append (hbefore : Blank before) (cs : List Char) :
    dropBlanks (before ++ cs) = dropBlanks cs :=
  List.dropWhile_append_of_pos hbefore

theorem trimChars_blank_append (hbefore : Blank before) (cs : List Char) :
    trimChars (before ++ cs) = trimChars cs := by
  rw [trimChars, dropBlanks_blank_append hbefore, trimChars]

theorem trimChars_append_blank (hafter : Blank after) (cs : List Char) :
    trimChars (cs ++ after) = trimChars cs := by
  have hreverse : Blank after.reverse := fun c hc => hafter c (List.mem_reverse.mp hc)
  have hdrop : dropBlanks (cs ++ after) =
      if (dropBlanks cs).isEmpty then dropBlanks after else dropBlanks cs ++ after :=
    List.dropWhile_append
  rw [trimChars, trimChars, hdrop]
  split
  · next hempty =>
    have hnone : dropBlanks after = [] := List.dropWhile_eq_nil_iff.mpr hafter
    rw [List.isEmpty_iff.mp hempty, hnone]
  · rw [List.reverse_append, dropBlanks_blank_append hreverse]

/-- **Blanks around a text make no difference.** -/
theorem trimChars_surrounded (hbefore : Blank before) (hafter : Blank after) (cs : List Char) :
    trimChars (before ++ cs ++ after) = trimChars cs := by
  rw [trimChars_append_blank hafter, trimChars_blank_append hbefore]

theorem trimChars_dropBlanks (cs : List Char) : trimChars (dropBlanks cs) = trimChars cs := by
  rw [trimChars, trimChars, show dropBlanks (dropBlanks cs) = dropBlanks cs from
    List.dropWhile_idempotent isBlank cs]

/-- **A text is what is left of it, with blanks around.** -/
theorem exists_trim (cs : List Char) :
    ∃ before after, Blank before ∧ Blank after ∧ cs = before ++ trimChars cs ++ after := by
  refine ⟨cs.takeWhile isBlank, (dropBlanks cs).rtakeWhile isBlank,
    fun c hc => List.mem_takeWhile_imp hc, fun c hc => List.mem_rtakeWhile_imp hc, ?_⟩
  have hend : trimChars cs ++ (dropBlanks cs).rtakeWhile isBlank = dropBlanks cs :=
    List.rdropWhile_append_rtakeWhile
  rw [List.append_assoc, hend]
  exact List.takeWhile_append_dropWhile.symm

theorem trimChars_eq_nil : trimChars cs = [] ↔ Blank cs := by
  constructor
  · intro h
    obtain ⟨before, after, hbefore, hafter, hcs⟩ := exists_trim cs
    rw [hcs, h, List.append_nil]
    exact List.forall_mem_append.mpr ⟨hbefore, hafter⟩
  · exact fun h => trimChars_append_blank h []

theorem mem_trimChars (hc : isBlank c = false) : c ∈ trimChars cs ↔ c ∈ cs := by
  obtain ⟨before, after, hbefore, hafter, hcs⟩ := exists_trim cs
  constructor
  · intro h
    rw [hcs]
    exact List.mem_append_left _ (List.mem_append_right _ h)
  · intro h
    rw [hcs] at h
    rcases List.mem_append.mp h with h | h
    · rcases List.mem_append.mp h with h | h
      · exact absurd (hbefore c h) (by rw [hc]; exact Bool.false_ne_true)
      · exact h
    · exact absurd (hafter c h) (by rw [hc]; exact Bool.false_ne_true)

end SynthData.Text
