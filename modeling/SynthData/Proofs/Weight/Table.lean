import SynthData.Proofs.Weight.Points

/-!
# What a table of weights holds and where a draw falls

The entries of a table are running sums divided by the total
(`cumulativeTable_eq`), for any numbers that serve as weights; a table is refused
exactly at the first weight that may not be one (`cumulativeTable_error_iff`).

The search ends between an entry that is below the draw and one that is not
(`lowerBound_between`).  The entries need not be in order for that: each step of
the bisection keeps an entry below the draw to its left and one that is not below
it to its right.
-/
namespace SynthData.Weighing

variable {α : Type} [Weighing α]

/-! ## Running sums -/

/-- The sum of weights, from the first to the last. -/
def total (weights : List α) : α := weights.foldl (· + ·) zero

/-- The sums of the beginnings of a list of weights, each added to what came before. -/
def sums (before : α) : List α → List α
  | [] => []
  | w :: ws => (before + w) :: sums (before + w) ws

theorem length_sums (before : α) (ws : List α) : (sums before ws).length = ws.length := by
  induction ws generalizing before with
  | nil => rfl
  | cons w ws ih => rw [sums, List.length_cons, List.length_cons, ih]

theorem getElem?_sums (before : α) {ws : List α} {i : Nat} (hi : i < ws.length) :
    (sums before ws)[i]? = some ((ws.take (i + 1)).foldl (· + ·) before) := by
  induction ws generalizing before i with
  | nil => exact absurd hi (Nat.not_lt_zero i)
  | cons w ws ih =>
    cases i with
    | zero => rfl
    | succ i =>
      rw [sums, List.getElem?_cons_succ, ih _ (Nat.lt_of_succ_lt_succ hi)]
      rfl

theorem runningSums_eq {ws : List α} (h : ∀ w ∈ ws, admits w = true) (read : Array α)
    (before : α) :
    runningSums read before ws =
      .ok (read ++ (sums before ws).toArray, ws.foldl (· + ·) before) := by
  induction ws generalizing read before with
  | nil => simp [runningSums, sums]
  | cons w ws ih =>
    rw [runningSums, if_pos (h w List.mem_cons_self),
      ih (fun w hw => h w (List.mem_cons_of_mem _ hw))]
    simp [sums]

/-- The sums end at the first weight that may not be one. -/
theorem runningSums_error_iff {ws : List α} {read : Array α} {before : α} {position : Nat}
    {weight : α} :
    runningSums read before ws = .error (position, weight) ↔
      ∃ i, position = read.size + i ∧ ws[i]? = some weight ∧ admits weight = false ∧
        ∀ w ∈ ws.take i, admits w = true := by
  induction ws generalizing read before with
  | nil => simp [runningSums]
  | cons w ws ih =>
    -- the first weight is a bad one, or the bad one is one position further
    cases hw : admits w with
    | false =>
      rw [runningSums, if_neg (by simp [hw])]
      constructor
      · intro h
        obtain ⟨rfl, rfl⟩ := Prod.mk.inj (Except.error.inj h)
        exact ⟨0, rfl, rfl, hw, by simp⟩
      · rintro ⟨i, rfl, hi, hweight, hbefore⟩
        cases i with
        | zero =>
          obtain rfl : w = weight := by simpa using hi
          rfl
        | succ i =>
          have hadmits := hbefore w List.mem_cons_self
          rw [hw] at hadmits
          cases hadmits
    | true =>
      rw [runningSums, if_pos hw, ih]
      constructor
      · rintro ⟨i, rfl, hi, hweight, hbefore⟩
        refine ⟨i + 1, by rw [Array.size_push]; omega, hi, hweight, ?_⟩
        rintro w' hw'
        rcases List.mem_cons.mp hw' with rfl | hw'
        · exact hw
        · exact hbefore w' hw'
      · rintro ⟨i, rfl, hi, hweight, hbefore⟩
        cases i with
        | zero =>
          obtain rfl : w = weight := by simpa using hi
          rw [hw] at hweight
          cases hweight
        | succ i =>
          exact ⟨i, by rw [Array.size_push]; omega, hi, hweight,
            fun w' hw' => hbefore w' (List.mem_cons_of_mem _ hw')⟩

theorem admits_of_runningSums {ws : List α} {read : Array α} {before : α}
    (h : ∀ bad, runningSums read before ws ≠ .error bad) : ∀ w ∈ ws, admits w = true := by
  induction ws generalizing read before with
  | nil => nofun
  | cons w ws ih =>
    cases hw : admits w with
    | false => exact absurd (by rw [runningSums, if_neg (by simp [hw])]) (h (read.size, w))
    | true =>
      rw [runningSums, if_pos hw] at h
      rintro w' hw'
      rcases List.mem_cons.mp hw' with rfl | hw'
      · exact hw
      · exact ih h w' hw'

/-! ## Tables -/

/-- **A table is refused at the first weight that may not be one.** -/
theorem cumulativeTable_error_iff {weights : List α} {position : Nat} {weight : α} :
    cumulativeTable weights = .error (position, weight) ↔
      weights[position]? = some weight ∧ admits weight = false ∧
        ∀ w ∈ weights.take position, admits w = true := by
  have hsums : runningSums #[] zero weights = .error (position, weight) ↔ _ :=
    runningSums_error_iff
  unfold cumulativeTable
  rcases hresult : runningSums #[] zero weights with bad | ⟨table, sum⟩
  · rw [hresult] at hsums
    dsimp only
    rw [Except.error.injEq, ← Except.error.injEq (ε := Nat × α) (α := Array α × α), hsums]
    simp
  · rw [hresult] at hsums
    constructor
    · intro h
      dsimp only at h
      split at h
      · cases h
      · cases h
    · intro h
      exact absurd (hsums.mpr ⟨position, by simp, h⟩) nofun

/-- The running sums divided by the total, with one at the end. -/
def shares (weights : List α) : Array α :=
  (((sums zero weights).map (· / total weights)).toArray).setIfInBounds (weights.length - 1) one

theorem size_shares (weights : List α) : (shares weights).size = weights.length := by
  simp [shares, length_sums]

theorem getElem?_shares {weights : List α} {i : Nat} (hi : i + 1 < weights.length) :
    (shares weights)[i]? = some (total (weights.take (i + 1)) / total weights) := by
  have hsum := getElem?_sums zero (show i < weights.length by omega)
  rw [shares, Array.getElem?_setIfInBounds_ne (by omega)]
  simp [hsum, total]

theorem getElem?_shares_last {weights : List α} (h : 0 < weights.length) :
    (shares weights)[weights.length - 1]? = some one := by
  refine Array.getElem?_setIfInBounds_self_of_lt ?_
  simp [length_sums]
  omega

theorem cumulativeTable_eq {weights : List α} (h : ∀ w ∈ weights, admits w = true)
    (hpos : isZero (total weights) = false) :
    cumulativeTable weights = .ok (some (shares weights)) := by
  unfold cumulativeTable
  rw [runningSums_eq h]
  refine (if_neg (Bool.eq_false_iff.mp hpos)).trans ?_
  simp [shares, total, length_sums]

/-- **There is no table** exactly if the total is zero. -/
theorem cumulativeTable_none_iff {weights : List α} :
    cumulativeTable weights = .ok none ↔
      (∀ w ∈ weights, admits w = true) ∧ isZero (total weights) = true := by
  constructor
  · intro h
    have hadmits : ∀ w ∈ weights, admits w = true := by
      have hsums : ∀ bad, runningSums #[] zero weights ≠ .error bad := by
        intro bad hbad
        simp only [cumulativeTable, hbad] at h
        cases h
      exact admits_of_runningSums hsums
    refine ⟨hadmits, ?_⟩
    cases hpos : isZero (total weights) with
    | true => rfl
    | false =>
      rw [cumulativeTable_eq hadmits hpos] at h
      cases h
  · rintro ⟨hadmits, hzero⟩
    rw [cumulativeTable, runningSums_eq hadmits]
    exact if_pos hzero

/-! ## The search -/

/-- Each step keeps a passed position to the left and one that is not passed to the right. -/
theorem bisect_between (passed : Nat → Bool) {steps low high : Nat} (hle : low ≤ high)
    (hsteps : high - low ≤ steps) :
    let i := bisect passed steps low high
    low ≤ i ∧ i ≤ high ∧ (i = low ∨ passed (i - 1) = true) ∧ (i = high ∨ passed i = false) := by
  induction steps generalizing low high with
  | zero =>
    obtain rfl : low = high := by omega
    exact ⟨Nat.le_refl _, Nat.le_refl _, Or.inl rfl, Or.inl rfl⟩
  | succ steps ih =>
    by_cases hlt : low < high
    · -- the middle is the new bound on the side that it belongs to
      cases hpassed : passed ((low + high) / 2) with
      | true =>
        have hle' : (low + high) / 2 + 1 ≤ high := by omega
        obtain ⟨hlow, hhigh, hleft, hright⟩ := ih hle' (by omega)
        have hstep : bisect passed (steps + 1) low high =
            bisect passed steps ((low + high) / 2 + 1) high := by
          simp [bisect, hlt, hpassed]
        simp only [hstep]
        refine ⟨by omega, hhigh, Or.inr (hleft.elim (fun heq => ?_) id), hright⟩
        rw [heq]
        exact hpassed
      | false =>
        have hle' : low ≤ (low + high) / 2 := by omega
        obtain ⟨hlow, hhigh, hleft, hright⟩ := ih hle' (by omega)
        have hstep : bisect passed (steps + 1) low high =
            bisect passed steps low ((low + high) / 2) := by
          simp [bisect, hlt, hpassed]
        simp only [hstep]
        refine ⟨hlow, by omega, hleft, Or.inr (hright.elim (fun heq => ?_) id)⟩
        rw [heq]
        exact hpassed
    · obtain rfl : low = high := by omega
      have hstep : bisect passed (steps + 1) low low = low := by simp [bisect]
      rw [hstep]
      exact ⟨Nat.le_refl _, Nat.le_refl _, Or.inl rfl, Or.inl rfl⟩

/-- An entry below a draw is passed. -/
def passes (table : Array α) (draw : α) (i : Nat) : Bool :=
  table[i]?.elim false (below · draw)

theorem passes_eq {table : Array α} {draw : α} {i : Nat} (h : i < table.size) :
    passes table draw i = below table[i] draw := by
  simp [passes, h]

theorem lowerBound_eq (table : Array α) (draw : α) :
    lowerBound table draw =
      min (bisect (passes table draw) table.size 0 table.size) (table.size - 1) := by
  rw [lowerBound]
  congr 2
  funext i
  rw [passes]
  cases table[i]? with
  | some entry => rfl
  | none => rfl

/-- **A draw falls on an entry that is not below it**, and the entry before that one is
below it.  The last entry must not be below the draw. -/
theorem lowerBound_between {table : Array α} {draw last : α}
    (hlast : table[table.size - 1]? = some last) (hdraw : below last draw = false) :
    (∃ entry, table[lowerBound table draw]? = some entry ∧ below entry draw = false) ∧
      (lowerBound table draw = 0 ∨
        ∃ entry, table[lowerBound table draw - 1]? = some entry ∧ below entry draw = true) := by
  have hsize : table.size - 1 < table.size := (Array.getElem?_eq_some_iff.mp hlast).1
  have hpassed_last : passes table draw (table.size - 1) = false := by
    rw [passes, hlast]
    exact hdraw
  obtain ⟨-, hhigh, hleft, hright⟩ :=
    bisect_between (passes table draw) (Nat.zero_le table.size) (Nat.le_refl table.size)
  have hlt : bisect (passes table draw) table.size 0 table.size < table.size := by
    -- the last entry is not passed
    refine Nat.lt_of_le_of_ne hhigh fun heq => ?_
    rcases hleft with hzero | hpassed
    · omega
    · rw [heq, hpassed_last] at hpassed
      cases hpassed
  have hfound : lowerBound table draw = bisect (passes table draw) table.size 0 table.size :=
    (lowerBound_eq table draw).trans (Nat.min_eq_left (Nat.le_sub_one_of_lt hlt))
  rw [hfound]
  refine ⟨⟨_, Array.getElem?_eq_getElem hlt, ?_⟩, hleft.imp_right fun hpassed => ?_⟩
  · rw [← passes_eq hlt]
    exact hright.resolve_left (by omega)
  · have hlt' : bisect (passes table draw) table.size 0 table.size - 1 < table.size := by omega
    refine ⟨_, Array.getElem?_eq_getElem hlt', ?_⟩
    rw [← passes_eq hlt']
    exact hpassed

end SynthData.Weighing
