import Mathlib.Algebra.Order.Monoid.WithTop
import SynthData.Proofs.Double.Arithmetic
import SynthData.Proofs.Weight.Table

/-!
# Tables of doubles

A running sum of doubles may become infinite although every weight is finite.
`Amount` says what a sum comes to, infinity included, and `Sums` that the sums of the
first weights grow.

A table is in order, with all entries between zero and one, exactly if the weights
before the last one have a finite sum (`weightTable_normalized_iff`).  In any table, a
draw falls on a weight of zero exactly if that weight is the first one and the draw
is zero (`drawn_pos_iff`).
-/
namespace SynthData.Weighing

open Binary64

/-! ## Sums -/

/-- What a sum of weights comes to. -/
inductive Amount (a : Float) : WithTop ℚ → Prop
  | number {q : ℚ} (nonneg : 0 ≤ q) (reads : Reads a q) : Amount a q
  | infinite (h : Infinite a) : Amount a ⊤

variable {a b : Float} {q : ℚ} {x y : WithTop ℚ}

theorem Amount.unique (h : Amount a x) (h' : Amount a y) : x = y := by
  cases h with
  | number _ reads =>
    cases h' with
    | number _ reads' => rw [reads.unique reads']
    | infinite h' => exact absurd h' reads.not_infinite
  | infinite h =>
    cases h' with
    | number _ reads' => exact absurd h reads'.not_infinite
    | infinite _ => rfl

/-- A sum is no less than its parts, and adding zero changes nothing. -/
theorem Amount.add (ha : Amount a x) (hq : 0 ≤ q) (hb : Reads b q) :
    ∃ y, Amount (a + b) y ∧ x ≤ y ∧ (q : WithTop ℚ) ≤ y ∧ (q = 0 → y = x) := by
  cases ha with
  | infinite h => exact ⟨⊤, .infinite (h.add hb), le_rfl, le_top, fun _ => rfl⟩
  | number nonneg reads =>
    rename_i p
    -- two numbers may have an infinite sum
    have hsum : 0 ≤ rounded (p + q) := rounded_nonneg (add_nonneg nonneg hq)
    rcases lt_or_ge (rounded (p + q)) limit with hlt | hge
    · have hp : rounded p ≤ rounded (p + q) := rounded_mono (le_add_of_nonneg_right hq)
      have hq' : rounded q ≤ rounded (p + q) := rounded_mono (le_add_of_nonneg_left nonneg)
      rw [reads.rounded] at hp
      rw [hb.rounded] at hq'
      refine ⟨_, .number hsum (reads.add hb (by rwa [abs_of_nonneg hsum])),
        WithTop.coe_le_coe.mpr hp, WithTop.coe_le_coe.mpr hq', ?_⟩
      rintro rfl
      rw [add_zero, reads.rounded]
    · refine ⟨⊤, .infinite (reads.infinite_add hb hge), le_top, le_top, ?_⟩
      rintro rfl
      rw [add_zero, reads.rounded] at hge
      exact absurd hge (not_le.mpr reads.lt_limit)

theorem admits_iff : admits a = true ↔ ∃ q, 0 ≤ q ∧ Reads a q := by
  show (a.isFinite && !decide (a < 0)) = true ↔ _
  rw [Bool.and_eq_true, isFinite_iff]
  constructor
  · rintro ⟨⟨q, hq⟩, hsign⟩
    refine ⟨q, ?_, hq⟩
    simpa [hq.lt_iff reads_zero] using hsign
  · rintro ⟨q, hnonneg, hq⟩
    exact ⟨⟨q, hq⟩, by simpa [hq.lt_iff reads_zero] using hnonneg⟩

theorem admits_of_finite {weights : List Float}
    (h : ∀ w ∈ weights, w.isFinite = true ∧ 0 ≤ w) : ∀ w ∈ weights, admits w = true := by
  intro w hw
  obtain ⟨hfinite, hnonneg⟩ := h w hw
  obtain ⟨q, hq⟩ := isFinite_iff.mp hfinite
  exact admits_iff.mpr ⟨q, (reads_zero.le_iff hq).mp hnonneg, hq⟩

theorem isZero_iff (h : Amount a x) : isZero a = true ↔ x = 0 := by
  show (a == 0) = true ↔ x = 0
  cases h with
  | number nonneg reads =>
    rw [reads.beq_iff reads_zero]
    exact WithTop.coe_eq_zero.symm
  | infinite h => simp [h.beq reads_zero]

/-- **What the sums of the first weights come to.** -/
structure Sums (weights : List Float) (x : ℕ → WithTop ℚ) : Prop where
  amount : ∀ k, Amount (total (weights.take k)) (x k)
  start : x 0 = 0
  mono : Monotone x
  /-- A sum is no less than its last part, and adding zero changes nothing. -/
  grows : ∀ k w q, weights[k]? = some w → Reads w q →
    (q : WithTop ℚ) ≤ x (k + 1) ∧ (q = 0 → x (k + 1) = x k)

theorem total_take_succ {weights : List Float} {k : ℕ} {w : Float} (h : weights[k]? = some w) :
    total (weights.take (k + 1)) = total (weights.take k) + w := by
  rw [total, List.take_add_one, h, List.foldl_append]
  rfl

theorem exists_sums {weights : List Float} (hadmits : ∀ w ∈ weights, admits w = true) :
    ∃ x, Sums weights x := by
  have hweight {k : ℕ} {w : Float} (hw : weights[k]? = some w) : ∃ q, 0 ≤ q ∧ Reads w q :=
    admits_iff.mp (hadmits w (List.mem_of_getElem? hw))
  have hamount (k : ℕ) : ∃ x, Amount (total (weights.take k)) x := by
    induction k with
    | zero => exact ⟨0, .number le_rfl reads_zero⟩
    | succ k ih =>
      obtain ⟨x, hx⟩ := ih
      cases hw : weights[k]? with
      | none =>
        rw [List.take_add_one, hw, Option.toList_none, List.append_nil]
        exact ⟨x, hx⟩
      | some w =>
        obtain ⟨q, hnonneg, hq⟩ := hweight hw
        obtain ⟨y, hy, -⟩ := hx.add hnonneg hq
        rw [total_take_succ hw]
        exact ⟨y, hy⟩
  choose x hx using hamount
  -- what a sum comes to is unique, so the chosen amounts are those of one more addition
  have hadd {k : ℕ} {w : Float} {q : ℚ} (hw : weights[k]? = some w) (hq : Reads w q) :
      x k ≤ x (k + 1) ∧ (q : WithTop ℚ) ≤ x (k + 1) ∧ (q = 0 → x (k + 1) = x k) := by
    obtain ⟨q', hnonneg, hq'⟩ := hweight hw
    obtain rfl := hq.unique hq'
    obtain ⟨y, hy, hgrows⟩ := (hx k).add hnonneg hq
    rw [← total_take_succ hw] at hy
    rwa [← (hx (k + 1)).unique hy] at hgrows
  refine ⟨x, hx, (hx 0).unique (.number le_rfl reads_zero), monotone_nat_of_le_succ fun k => ?_,
    fun k w q hw hq => (hadd hw hq).2⟩
  cases hw : weights[k]? with
  | none =>
    have hsame := hx (k + 1)
    rw [List.take_add_one, hw, Option.toList_none, List.append_nil] at hsame
    rw [hsame.unique (hx k)]
  | some w =>
    obtain ⟨q, -, hq⟩ := hweight hw
    exact (hadd hw hq).1

variable {weights : List Float} {s : ℕ → WithTop ℚ}

theorem Sums.amount_total (hs : Sums weights s) : Amount (total weights) (s weights.length) := by
  have hall := hs.amount weights.length
  rwa [List.take_length] at hall

/-- The total is not zero if some weight is not. -/
theorem Sums.total_pos (hs : Sums weights s) (hadmits : ∀ w ∈ weights, admits w = true)
    (hpos : ∃ w ∈ weights, 0 < w) : 0 < s weights.length := by
  obtain ⟨w, hw, hlt⟩ := hpos
  obtain ⟨k, hk⟩ := List.mem_iff_getElem?.mp hw
  obtain ⟨q, -, hq⟩ := admits_iff.mp (hadmits w hw)
  have hlength : k + 1 ≤ weights.length := (List.getElem?_eq_some_iff.mp hk).1
  calc (0 : WithTop ℚ) < q := WithTop.coe_pos.mpr ((reads_zero.lt_iff hq).mp hlt)
    _ ≤ s (k + 1) := (hs.grows k w q hk hq).1
    _ ≤ s weights.length := hs.mono hlength

/-! ## Shares -/

/-- The share of a sum in a total.  In an infinite total no number has a share. -/
def shareOf (q : ℚ) : WithTop ℚ → ℚ
  | ⊤ => 0
  | (sum : ℚ) => rounded (q / sum)

theorem shareOf_coe (q sum : ℚ) : shareOf q sum = rounded (q / sum) := rfl

theorem shareOf_mem (hq : 0 ≤ q) (hle : q ≤ x) : 0 ≤ shareOf q x ∧ shareOf q x ≤ 1 := by
  induction x using WithTop.recTopCoe with
  | top => exact ⟨le_rfl, zero_le_one⟩
  | coe sum =>
    have hsum : q ≤ sum := WithTop.coe_le_coe.mp hle
    refine ⟨rounded_nonneg (div_nonneg hq (hq.trans hsum)), ?_⟩
    have hone := rounded_mono (div_le_one_of_le₀ hsum (hq.trans hsum))
    rwa [reads_one.rounded] at hone

theorem shareOf_zero (x : WithTop ℚ) : shareOf 0 x = 0 := by
  induction x using WithTop.recTopCoe with
  | top => rfl
  | coe sum => rw [shareOf_coe, zero_div, rounded_zero]

theorem shareOf_mono {p : ℚ} (hp : 0 ≤ p) (hpq : p ≤ q) (hle : q ≤ x) :
    shareOf p x ≤ shareOf q x := by
  induction x using WithTop.recTopCoe with
  | top => exact le_rfl
  | coe sum =>
    have hsum : q ≤ sum := WithTop.coe_le_coe.mp hle
    exact rounded_mono (div_le_div_of_nonneg_right hpq ((hp.trans hpq).trans hsum))

theorem Amount.share (ha : Reads a q) (hq : 0 ≤ q) (hb : Amount b x) (hle : q ≤ x) (hpos : 0 < x) :
    Reads (a / b) (shareOf q x) := by
  have hmem := shareOf_mem hq hle
  cases hb with
  | infinite h => exact ha.div_infinite h
  | number nonneg reads =>
    refine ha.div reads (WithTop.coe_pos.mp hpos).ne' ?_
    exact (abs_of_nonneg hmem.1).trans_lt (hmem.2.trans_lt reads_one.lt_limit)

theorem Amount.reads (h : Amount a q) : 0 ≤ q ∧ Reads a q := by
  generalize hx : (q : WithTop ℚ) = x at h
  cases h with
  | number nonneg reads =>
    obtain rfl := WithTop.coe_injective hx
    exact ⟨nonneg, reads⟩
  | infinite _ => exact absurd hx (WithTop.coe_ne_top)

theorem Amount.isInfinite (h : Amount a ⊤) : Infinite a := by
  generalize hx : (⊤ : WithTop ℚ) = x at h
  cases h with
  | number _ _ => exact absurd hx.symm (WithTop.coe_ne_top)
  | infinite h => exact h

/-- An entry is not a number if its sum is infinite. -/
theorem Sums.entry_nan (hs : Sums weights s) {i : ℕ} (hi : i + 1 < weights.length)
    (htop : s (i + 1) = ⊤) :
    ∃ entry, (shares weights)[i]? = some entry ∧ entry.isNaN = true := by
  have hsum := hs.amount (i + 1)
  have hall := hs.amount_total
  rw [htop] at hsum
  rw [show s weights.length = ⊤ from top_unique (htop ▸ hs.mono hi.le)] at hall
  exact ⟨_, getElem?_shares hi, hsum.isInfinite.div_infinite hall.isInfinite⟩

section Entries

variable (hs : Sums weights s) (hpos : 0 < s weights.length)

include hs hpos

/-- An entry before the last one is the share of a sum that is a number. -/
theorem Sums.entry {i : ℕ} (hi : i + 1 < weights.length) (hq : s (i + 1) = q) :
    ∃ entry, (shares weights)[i]? = some entry ∧ 0 ≤ q ∧ q ≤ s weights.length ∧
      Reads entry (shareOf q (s weights.length)) := by
  have hamount := hs.amount (i + 1)
  rw [hq] at hamount
  obtain ⟨hnonneg, hreads⟩ := hamount.reads
  have hle : (q : WithTop ℚ) ≤ s weights.length := by
    rw [← hq]
    exact hs.mono hi.le
  exact ⟨_, getElem?_shares hi, hnonneg, hle, Amount.share hreads hnonneg hs.amount_total hle hpos⟩

theorem Sums.length_pos : 0 < weights.length := by
  rcases Nat.eq_zero_or_pos weights.length with hzero | hlength
  · rw [hzero, hs.start] at hpos
    exact absurd hpos (lt_irrefl 0)
  · exact hlength

/-- Every entry is a number if the sums before the last one are. -/
theorem Sums.reads_entry (hfinite : s (weights.length - 1) ≠ ⊤) {i : ℕ} {entry : Float}
    (hentry : (shares weights)[i]? = some entry) :
    (i + 1 = weights.length ∧ Reads entry 1) ∨
      ∃ q : ℚ, i + 1 < weights.length ∧ s (i + 1) = q ∧ 0 ≤ q ∧ q ≤ s weights.length ∧
        Reads entry (shareOf q (s weights.length)) := by
  have hi : i < weights.length := by
    rw [← size_shares weights]
    exact (Array.getElem?_eq_some_iff.mp hentry).1
  rcases Nat.lt_or_ge (i + 1) weights.length with hlt | hge
  · right
    have hne : s (i + 1) ≠ ⊤ := ne_top_of_le_ne_top hfinite (hs.mono (by omega))
    obtain ⟨q, hq⟩ := WithTop.ne_top_iff_exists.mp hne
    obtain ⟨entry', hentry', hnonneg, hle, hreads⟩ := hs.entry hpos hlt hq.symm
    obtain rfl := Option.some.inj (hentry.symm.trans hentry')
    exact ⟨q, hlt, hq.symm, hnonneg, hle, hreads⟩
  · left
    obtain rfl : i = weights.length - 1 := by omega
    rw [getElem?_shares_last (hs.length_pos hpos)] at hentry
    obtain rfl := Option.some.inj hentry
    exact ⟨by omega, reads_one⟩

end Entries

/-- **A table is in order**: its entries are numbers between zero and one, they never decrease, and
the last one is one. -/
structure Normalized (table : Array Float) : Prop where
  within : ∀ (i : ℕ) entry, table[i]? = some entry → entry.isNaN = false ∧ 0 ≤ entry ∧ entry ≤ 1
  ordered : ∀ (i j : ℕ) entry entry', i ≤ j → table[i]? = some entry → table[j]? = some entry' →
    entry ≤ entry'
  last : table[table.size - 1]? = some 1

theorem Sums.normalized (hs : Sums weights s) (hpos : 0 < s weights.length)
    (hfinite : s (weights.length - 1) ≠ ⊤) : Normalized (shares weights) where
  within := by
    intro i entry hentry
    obtain ⟨-, hreads⟩ | ⟨q, -, -, hnonneg, hle, hreads⟩ := hs.reads_entry hpos hfinite hentry
    · exact ⟨hreads.isNaN, (reads_zero.le_iff hreads).mpr zero_le_one,
        (hreads.le_iff reads_one).mpr le_rfl⟩
    · obtain ⟨hzero, hone⟩ := shareOf_mem hnonneg hle
      exact ⟨hreads.isNaN, (reads_zero.le_iff hreads).mpr hzero, (hreads.le_iff reads_one).mpr hone⟩
  ordered := by
    intro i j entry entry' hij hentry hentry'
    obtain ⟨hi, hreads⟩ | ⟨q, -, hq, hnonneg, hle, hreads⟩ := hs.reads_entry hpos hfinite hentry
    all_goals
      obtain ⟨hj, hreads'⟩ | ⟨q', hj, hq', hnonneg', hle', hreads'⟩ :=
        hs.reads_entry hpos hfinite hentry'
    · exact (hreads.le_iff hreads').mpr le_rfl
    · omega
    · exact (hreads.le_iff hreads').mpr (shareOf_mem hnonneg hle).2
    · have hsums : (q : WithTop ℚ) ≤ q' := by
        rw [← hq, ← hq']
        exact hs.mono (by omega)
      exact (hreads.le_iff hreads').mpr (shareOf_mono hnonneg (WithTop.coe_le_coe.mp hsums) hle')
  last := by
    rw [size_shares]
    exact getElem?_shares_last (hs.length_pos hpos)

theorem Sums.isFinite_iff (hs : Sums weights s) (k : ℕ) :
    (total (weights.take k)).isFinite = true ↔ s k ≠ ⊤ := by
  have hamount := hs.amount k
  rw [Binary64.isFinite_iff]
  generalize s k = x at hamount
  cases hamount with
  | number _ reads => exact iff_of_true ⟨_, reads⟩ WithTop.coe_ne_top
  | infinite h => exact iff_of_false (fun ⟨_, hreads⟩ => hreads.not_infinite h) (not_not.mpr rfl)

theorem weightTable_of_pos (hadmits : ∀ w ∈ weights, admits w = true)
    (hs : Sums weights s) (hpos : 0 < s weights.length) :
    weightTable weights = .ok (some (shares weights)) := by
  have hzero : isZero (total weights) = false := by
    rw [Bool.eq_false_iff, ne_eq, isZero_iff hs.amount_total]
    exact hpos.ne'
  rw [weightTable, cumulativeTable_eq hadmits hzero]

/-- **A table of doubles is in order unless a sum becomes infinite too early.**  Weights that are
finite, not negative and not all zero have a table with an entry for each of them.  It is in order
exactly if the weights before the last one have a finite sum. -/
theorem weightTable_normalized_iff (weights : List Float)
    (hadmits : ∀ w ∈ weights, w.isFinite = true ∧ 0 ≤ w) (hpos : ∃ w ∈ weights, 0 < w) :
    ∃ table, weightTable weights = .ok (some table) ∧ table.size = weights.length ∧
      (Normalized table ↔ (total weights.dropLast).isFinite = true) := by
  have hadmits' := admits_of_finite hadmits
  obtain ⟨s, hs⟩ := exists_sums hadmits'
  have hsum := hs.total_pos hadmits' hpos
  refine ⟨_, weightTable_of_pos hadmits' hs hsum, size_shares weights, ?_⟩
  rw [List.dropLast_eq_take, hs.isFinite_iff]
  refine ⟨fun hnormalized htop => ?_, hs.normalized hsum⟩
  -- the first sum is zero, so there is an entry for this one
  have hlength : weights.length - 1 ≠ 0 := by
    intro hzero
    rw [hzero, hs.start] at htop
    cases htop
  obtain ⟨entry, hentry, hnan⟩ := hs.entry_nan (i := weights.length - 2) (by omega)
    (by rwa [show weights.length - 2 + 1 = weights.length - 1 by omega])
  have hnumber := (hnormalized.within _ entry hentry).1
  rw [hnan] at hnumber
  cases hnumber

/-- The table of three small weights is in order. -/
theorem weightTable_normalized_threeWeights :
    ((∀ w ∈ [1, 0, 3], Float.isFinite w = true ∧ 0 ≤ w) ∧ ∃ w ∈ [1, 0, 3], (0 : Float) < w) ∧
      ∃ table, weightTable [1, 0, 3] = .ok (some table) ∧ table.size = 3 ∧ Normalized table := by
  have hadmits : ∀ w ∈ [1, 0, 3], Float.isFinite w = true ∧ 0 ≤ w := by decide +kernel
  have hpos : ∃ w ∈ [1, 0, 3], (0 : Float) < w := by decide +kernel
  obtain ⟨table, htable, hsize, hnormalized⟩ := weightTable_normalized_iff [1, 0, 3] hadmits hpos
  exact ⟨⟨hadmits, hpos⟩, table, htable, hsize, hnormalized.mpr (by decide +kernel)⟩

/-- The sum of the first two of these weights is infinite, and the second entry of their table is
not a number. -/
theorem weightTable_overflows :
    let weights : List Float := [1e308, 1e308, 1e308]
    (∀ w ∈ weights, w.isFinite = true ∧ 0 ≤ w) ∧ (∃ w ∈ weights, 0 < w) ∧
      ∃ table, weightTable weights = .ok (some table) ∧ ¬ Normalized table := by
  intro weights
  have hadmits : ∀ w ∈ weights, admits w = true := by decide +kernel
  have hzero : isZero (total weights) = false := by decide +kernel
  have hnan : (shares weights)[1]?.map Float.isNaN = some true := by decide +kernel
  refine ⟨by decide +kernel, by decide +kernel, shares weights, ?_, ?_⟩
  · rw [weightTable, cumulativeTable_eq hadmits hzero]
  · intro hnormalized
    obtain ⟨entry, hentry, hisNaN⟩ := Option.map_eq_some_iff.mp hnan
    have hnumber := (hnormalized.within 1 entry hentry).1
    rw [hisNaN] at hnumber
    cases hnumber

/-! ## Draws -/

section Draws

variable {draw : Float} {d : ℚ} (hs : Sums weights s) (hpos : 0 < s weights.length)
  (hdraw : Reads draw d)

include hs hpos hdraw

/-- An entry that is below a draw is a share. -/
theorem Sums.entry_below {i : ℕ} {entry : Float} (hi : i + 1 < weights.length)
    (hentry : (shares weights)[i]? = some entry) (hbelow : entry < draw) :
    ∃ q : ℚ, s (i + 1) = q ∧ 0 ≤ q ∧ q ≤ s weights.length ∧ shareOf q (s weights.length) < d := by
  have hne : s (i + 1) ≠ ⊤ := by
    intro htop
    obtain ⟨entry', hentry', hnan⟩ := hs.entry_nan hi htop
    obtain rfl := Option.some.inj (hentry.symm.trans hentry')
    exact absurd hbelow (not_lt_of_isNaN hnan)
  obtain ⟨q, hq⟩ := WithTop.ne_top_iff_exists.mp hne
  obtain ⟨entry', hentry', hnonneg, hle, hreads⟩ := hs.entry hpos hi hq.symm
  obtain rfl := Option.some.inj (hentry.symm.trans hentry')
  exact ⟨q, hq.symm, hnonneg, hle, (hreads.lt_iff hdraw).mp hbelow⟩

/-- A draw does not fall on a share that is below it. -/
theorem Sums.grown {i : ℕ} (hi : i < weights.length) {q : ℚ} (hq : s i = q)
    (hbelow : shareOf q (s weights.length) < d) (hone : d < 1)
    (hfall : ∃ entry, (shares weights)[i]? = some entry ∧ ¬ entry < draw) : s (i + 1) ≠ s i := by
  intro hsame
  rw [hq] at hsame
  rcases Nat.lt_or_ge (i + 1) weights.length with hlt | hge
  · obtain ⟨entry, hentry, hnot⟩ := hfall
    obtain ⟨entry', hentry', -, -, hreads⟩ := hs.entry hpos hlt hsame
    obtain rfl := Option.some.inj (hentry.symm.trans hentry')
    exact hnot ((hreads.lt_iff hdraw).mpr hbelow)
  · -- the sum is the total, of which it has the whole share
    have hall : weights.length = i + 1 := by omega
    rw [hall, hsame] at hpos hbelow
    have hwhole : shareOf q (q : WithTop ℚ) = 1 := by
      rw [shareOf_coe, div_self (WithTop.coe_pos.mp hpos).ne', reads_one.rounded]
    rw [hwhole] at hbelow
    exact absurd hbelow (not_lt.mpr hone.le)

/-- Where a draw falls, the sum grows, except for a draw of zero. -/
theorem Sums.drawn (hone : d < 1) :
    let i := lowerBound (shares weights) draw
    i < weights.length ∧ (0 < d → s (i + 1) ≠ s i) ∧ (d = 0 → i = 0) := by
  intro i
  have hlength := hs.length_pos hpos
  have hlast : (shares weights)[(shares weights).size - 1]? = some one := by
    rw [size_shares]
    exact getElem?_shares_last hlength
  have hdraw' : below one draw = false :=
    decide_eq_false ((reads_one.lt_iff hdraw).not.mpr (not_lt.mpr hone.le))
  obtain ⟨⟨entry, hentry, hnot⟩, hbefore⟩ := lowerBound_between hlast hdraw'
  have hi : i < weights.length := by
    rw [← size_shares weights]
    exact (Array.getElem?_eq_some_iff.mp hentry).1
  have hfall : ∃ entry, (shares weights)[i]? = some entry ∧ ¬ entry < draw :=
    ⟨entry, hentry, of_decide_eq_false hnot⟩
  rcases Nat.eq_zero_or_pos i with hfirst | hlater
  · refine ⟨hi, fun hpos' => ?_, fun _ => hfirst⟩
    have hstart : s i = ((0 : ℚ) : WithTop ℚ) := by rw [hfirst, hs.start, WithTop.coe_zero]
    exact hs.grown hpos hdraw hi hstart (by rwa [shareOf_zero]) hone hfall
  · -- the entry before is below the draw, so it is a number and the draw is not zero
    obtain ⟨entry', hentry', hbelow⟩ := hbefore.resolve_left hlater.ne'
    obtain ⟨q, hq, hnonneg, hle, hshare⟩ :=
      hs.entry_below hpos hdraw (i := i - 1) (by omega) hentry' (of_decide_eq_true hbelow)
    rw [Nat.sub_add_cancel hlater] at hq
    have hpos' : 0 < d := (shareOf_mem hnonneg hle).1.trans_lt hshare
    exact ⟨hi, fun _ => hs.grown hpos hdraw hi hq hshare hone hfall,
      fun hzero' => absurd hzero' hpos'.ne'⟩

end Draws

/-- **A weight of zero is not drawn**, unless it is the first one and the draw is zero. -/
theorem drawn_pos_iff (weights : List Float) (hadmits : ∀ w ∈ weights, w.isFinite = true ∧ 0 ≤ w)
    (hpos : ∃ w ∈ weights, 0 < w) {draw : Float} (hzero : 0 ≤ draw) (hone : draw < 1) :
    ∃ table w, weightTable weights = .ok (some table) ∧ weights[lowerBound table draw]? = some w ∧
      (0 < w ↔ 0 < draw ∨ ∃ first, weights[0]? = some first ∧ 0 < first) := by
  have hadmits' := admits_of_finite hadmits
  obtain ⟨s, hs⟩ := exists_sums hadmits'
  have hsum := hs.total_pos hadmits' hpos
  obtain ⟨d, hdraw⟩ := reads_of_between reads_zero reads_one hzero hone
  have hd := (reads_zero.le_iff hdraw).mp hzero
  obtain ⟨hi, hgrows, hstart⟩ := hs.drawn hsum hdraw ((hdraw.lt_iff reads_one).mp hone)
  generalize hindex : lowerBound (shares weights) draw = i at hi hgrows hstart
  have hw : weights[i]? = some weights[i] := List.getElem?_eq_getElem hi
  obtain ⟨q, hnonneg, hq⟩ := admits_iff.mp (hadmits' _ (List.getElem_mem hi))
  refine ⟨shares weights, weights[i], weightTable_of_pos hadmits' hs hsum, by rw [hindex, hw], ?_⟩
  rw [reads_zero.lt_iff hdraw]
  rcases hd.eq_or_lt with heq | hlt
  · obtain rfl := hstart heq.symm
    rw [← heq]
    exact ⟨fun hpos' => Or.inr ⟨_, hw, hpos'⟩, by simp [hw]⟩
  · refine iff_of_true ((reads_zero.lt_iff hq).mpr (hnonneg.lt_of_ne ?_)) (Or.inl hlt)
    exact fun hne => hgrows hlt ((hs.grows i _ q hw hq).2 hne.symm)

/-- A draw of zero falls on the first weight. -/
example : (weightTable [0, 1]).toOption.join.map (lowerBound · 0) = some 0 := by decide +kernel

end SynthData.Weighing
