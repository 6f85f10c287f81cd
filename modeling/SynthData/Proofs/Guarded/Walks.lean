import SynthData.Proofs.Guarded.Points
import SynthData.Proofs.Walk.Kinds

/-!
# Walks in words

Each walk as it computes in words: how it begins a pass and how it takes a step.
The indices of a grid have 64 bits without a sign.  Walks that may leave the grid
at either end compute with signed words of 128 bits instead, and the reversed
counters of a grid of `2 ^ 63 + 1` points or more need a word of 128 bits as
well.

The invariants of a pass say that no step is broken off: whatever the grid and
the parameters are, the guarded step is the step itself (`guardedNext_eq`).
-/
namespace SynthData.Walk

variable {min max granularity : Int64} {n : Nat}

/-! ## Strides -/

namespace Shuffle

/-- Begins a pass. -/
def guardedRewind (spec : Spec) (w : Shuffle) : Guarded Shuffle := do
  let count ← spec.guardedCount
  return ⟨w.increment, count, 0, some 0⟩

/-- The next index.  A stride that leads beyond the words ends the round as one does that leads
beyond the grid. -/
def guardedNext (w : Shuffle) : Guarded (Option Nat × Shuffle) :=
  match w.current with
  | none => return (none, w)
  | some index =>
    match (Word.add? 64 index w.increment).filter (· < w.count) with
    | some following => return (some index, { w with current := some following })
    | none => do
      let offset ← Word.add 64 w.offset 1
      let current := if offset < w.increment ∧ offset < w.count then some offset else none
      return (some index, { w with offset := offset, current := current })

theorem guardedRewind_eq (hv : (Spec.long min max granularity).validate = .ok ()) (w : Shuffle) :
    w.guardedRewind (.long min max granularity) = .ok (w.rewind (.long min max granularity)) := by
  simp [guardedRewind, rewind, Spec.guardedCount_eq hv]

theorem guardedNext_eq {w : Shuffle} (hw : w.Visits n) (hn : n < 2 ^ 64) :
    w.guardedNext = .ok w.next := by
  unfold guardedNext next
  cases hc : w.current with
  | none => rfl
  | some c =>
    obtain ⟨hlt, hmod⟩ := hw.current c hc
    have hcount := hw.count_eq
    dsimp only
    by_cases hround : c + w.increment < w.count
    · have hsum : (Word.add? 64 c w.increment).filter (· < w.count) = some (c + w.increment) := by
        rw [Word.add?, if_pos (by omega)]
        simpa using hround
      simp [hsum, hround]
    · have hsum : (Word.add? 64 c w.increment).filter (· < w.count) = none := by
        unfold Word.add?
        split
        · simpa using hround
        · rfl
      -- the offset is what the present index leaves, so it is on the grid
      have hoffset : w.offset ≤ c := hmod ▸ Nat.mod_le _ _
      have hnext : Word.add 64 w.offset 1 = .ok (w.offset + 1) := Word.add_ok (by omega)
      simp [hsum, hround, hnext]

end Shuffle

/-! ## Equal steps -/

namespace Step

/-- The least and the largest index that a limit leaves. -/
def guardedBounds (spec : Spec) (delta : Int64) (limit : Option Float) : Guarded (Int × Int) := do
  let count ← spec.guardedCount
  let top ← Wide.sub count 1
  match limit with
  | none => return (0, top)
  | some limit =>
    if 0 ≤ delta then
      match ← spec.guardedFloorIndex (lesser limit spec.max.toFloat) with
      | some i => return (0, Min.min top i)
      | none => return (0, -1)
    else
      match ← spec.guardedFloorIndex (greater limit spec.min.toFloat) with
      | some i =>
        let point ← spec.guardedValueAt i
        if point.toFloat < limit then
          let low ← Wide.add i 1
          return (low, top)
        else return (i, top)
      | none =>
        let low ← Wide.add top 1
        return (low, top)

/-- The index at or below an initial value. -/
def guardedStart (spec : Spec) : Option Float → Guarded (Option Nat)
  | some x => spec.guardedFloorIndex x
  | none => return none

/-- Begins a pass. -/
def guardedRewind (spec : Spec) (w : Step) : Guarded Step := do
  let (low, high) ← guardedBounds spec w.delta w.limit
  let start ← guardedStart spec w.initial
  let current := match start with
    | some i => Int.ofNat i
    | none => if w.delta < 0 then high else low
  return { w with low := low, high := high, current := current }

/-- The next index. -/
def guardedNext (w : Step) : Guarded (Option Nat × Step) :=
  if w.current < w.low ∨ w.high < w.current then return (none, w)
  else do
    let following ← Wide.add w.current w.delta.toInt
    return (some (Word.ofInt 64 w.current), { w with current := following })

theorem guardedBounds_eq (hv : (Spec.long min max granularity).validate = .ok ()) (delta : Int64)
    (limit : Option Float) :
    guardedBounds (.long min max granularity) delta limit =
      .ok (bounds (.long min max granularity) delta limit) := by
  have hlt : (Spec.long min max granularity).sampleCount < 2 ^ 64 := Spec.sampleCount_long_lt
  have htop : Wide.sub (Spec.long min max granularity).sampleCount 1 =
      .ok ((Spec.long min max granularity).sampleCount - 1 : Int) :=
    Wide.fit_ok (by omega) (by omega)
  cases limit with
  | none => simp [guardedBounds, bounds, Spec.guardedCount_eq hv, htop]
  | some limit =>
    simp only [guardedBounds, bounds, Spec.guardedCount_eq hv, Spec.guardedFloorIndex_eq hv, htop,
      Guarded.ok_bind, Guarded.pure_eq]
    split
    · cases hi : (Spec.long min max granularity).floorIndex?
        (lesser limit (Spec.long min max granularity).max.toFloat) <;> rfl
    · cases hi : (Spec.long min max granularity).floorIndex?
        (greater limit (Spec.long min max granularity).min.toFloat) with
      | some i =>
        have hi := Spec.floorIndex?_lt hi
        have hlow : Wide.add i 1 = .ok (i + 1) := Wide.fit_ok (by omega) (by omega)
        simp only [Spec.guardedValueAt_eq (show i < 2 ^ 64 by omega), hlow, Guarded.ok_bind]
        split <;> rfl
      | none =>
        have hlow : Wide.add ((Spec.long min max granularity).sampleCount - 1 : Int) 1 =
            .ok ((Spec.long min max granularity).sampleCount - 1 + 1) :=
          Wide.fit_ok (by omega) (by omega)
        simp [hlow]

theorem guardedRewind_eq (hv : (Spec.long min max granularity).validate = .ok ()) (w : Step) :
    w.guardedRewind (.long min max granularity) = .ok (w.rewind (.long min max granularity)) := by
  have hstart : guardedStart (.long min max granularity) w.initial =
      .ok (w.initial.bind (Spec.long min max granularity).floorIndex?) := by
    cases w.initial with
    | none => rfl
    | some x => exact Spec.guardedFloorIndex_eq hv x
  unfold guardedRewind
  rw [guardedBounds_eq hv, hstart]
  rfl

theorem guardedNext_eq {w : Step} (hw : w.Visits n) (hn : n < 2 ^ 64) :
    w.guardedNext = .ok w.next := by
  have hlow := hw.low_nonneg
  have hhigh := hw.high_lt
  unfold guardedNext next
  by_cases hout : w.current < w.low ∨ w.high < w.current
  · simp [hout]
  · have hmin := w.delta.le_toInt
    have hmax := w.delta.toInt_lt
    have hadd : Wide.add w.current w.delta.toInt = .ok (w.current + w.delta.toInt) :=
      Wide.fit_ok (by omega) (by omega)
    have hword : Word.ofInt 64 w.current = w.current.toNat := Word.ofInt_eq (by omega) (by omega)
    simp [hout, hadd, hword]

end Step

/-! ## Ascending order -/

namespace Cycle

/-- Begins a pass. -/
def guardedRewind (spec : Spec) (w : Cycle) : Guarded Cycle := do
  let count ← spec.guardedCount
  return { w with count := count, current := some 0 }

/-- The next index. -/
def guardedNext (w : Cycle) : Guarded (Option Nat × Cycle) :=
  match w.current with
  | none => return (none, w)
  | some index => do
    let following ← Word.add 64 index 1
    let current :=
      if following < w.count then some following
      else if w.unique then none
      else some 0
    return (some index, { w with current := current })

theorem guardedRewind_eq (hv : (Spec.long min max granularity).validate = .ok ()) (w : Cycle) :
    w.guardedRewind (.long min max granularity) = .ok (w.rewind (.long min max granularity)) := by
  simp [guardedRewind, rewind, Spec.guardedCount_eq hv]

theorem guardedNext_eq {w : Cycle} (hw : w.Visits n) (hn : n < 2 ^ 64) :
    w.guardedNext = .ok w.next := by
  unfold guardedNext next
  cases hc : w.current with
  | none => rfl
  | some c =>
    have hlt := hw.current_lt c hc
    have hnext : Word.add 64 c 1 = .ok (c + 1) := Word.add_ok (by omega)
    simp [hnext]

end Cycle

/-! ## The first indices -/

namespace First

/-- Begins a pass. -/
def guardedRewind (spec : Spec) (w : First) : Guarded First := do
  let count ← spec.guardedCount
  return ⟨w.size, Min.min w.size count, 0⟩

/-- The next index, which is the one before the index after it. -/
def guardedNext (w : First) : Guarded (Option Nat × First) :=
  if w.stop ≤ w.current then return (none, w)
  else do
    let following ← Word.add 64 w.current 1
    let index ← Word.sub following 1
    return (some index, { w with current := following })

theorem guardedRewind_eq (hv : (Spec.long min max granularity).validate = .ok ()) (w : First) :
    w.guardedRewind (.long min max granularity) = .ok (w.rewind (.long min max granularity)) := by
  simp [guardedRewind, rewind, Spec.guardedCount_eq hv]

theorem guardedNext_eq {w : First} (hw : w.Visits n) (hn : n < 2 ^ 64) :
    w.guardedNext = .ok w.next := by
  have hstop : w.stop ≤ n := hw
  unfold guardedNext next
  by_cases hend : w.stop ≤ w.current
  · simp [hend]
  · have hadd : Word.add 64 w.current 1 = .ok (w.current + 1) := Word.add_ok (by omega)
    have hsub : Word.sub (w.current + 1) 1 = .ok w.current := Word.sub_ok (Nat.le_add_left 1 _)
    simp [hend, hadd, hsub]

end First

/-! ## From both ends -/

namespace Wedge

/-- Begins a pass. -/
def guardedRewind (spec : Spec) (_ : Wedge) : Guarded Wedge := do
  let count ← spec.guardedCount
  let high ← Word.sub count 1
  return ⟨0, high, true, false⟩

/-- Moves the end whose turn it is, or ends the walk where both ends meet. -/
def guardedMove (w : Wedge) : Guarded Wedge :=
  if w.low = w.high then return { w with done := true }
  else if w.fromLow then do
    let low ← Word.add 64 w.low 1
    return { w with low := low }
  else do
    let high ← Word.sub w.high 1
    return { w with high := high }

/-- The next index. -/
def guardedNext (w : Wedge) : Guarded (Option Nat × Wedge) :=
  if w.done then return (none, w)
  else do
    let index := if w.fromLow then w.low else w.high
    let moved ← w.guardedMove
    return (some index, { moved with fromLow := !w.fromLow })

theorem guardedRewind_eq (hv : (Spec.long min max granularity).validate = .ok ()) (w : Wedge) :
    w.guardedRewind (.long min max granularity) = .ok (w.rewind (.long min max granularity)) := by
  simp [guardedRewind, rewind, Spec.guardedCount_eq hv, Word.sub_ok (Spec.sampleCount_pos _)]

theorem guardedNext_eq {w : Wedge} (hw : w.Visits n) (hn : n < 2 ^ 64) :
    w.guardedNext = .ok w.next := by
  unfold guardedNext next
  cases hdone : w.done with
  | true => rfl
  | false =>
    obtain ⟨hle, hlt⟩ := hw hdone
    by_cases hmeet : w.low = w.high
    · simp [guardedMove, hmeet]
    · have hadd : Word.add 64 w.low 1 = .ok (w.low + 1) := Word.add_ok (by omega)
      have hsub : Word.sub w.high 1 = .ok (w.high - 1) := Word.sub_ok (by omega)
      cases hturn : w.fromLow with
      | true => simp [guardedMove, hmeet, hturn, hadd, hdone]
      | false => simp [guardedMove, hmeet, hturn, hsub, hdone]

end Wedge

/-! ## Random order -/

namespace Random

/-- Begins a pass. -/
def guardedRewind (spec : Spec) (w : Random) : Guarded Random := do
  let count ← spec.guardedCount
  return ⟨w.unique, count, 0, ∅⟩

/-- The next index. -/
def guardedNext (rng : Rng) (w : Random) : Guarded (Option Nat × Random × Rng) :=
  if w.unique then
    if w.count ≤ w.drawn then return (none, w, rng)
    else do
      let (place, rng) ← rng.drawFrom w.drawn w.count
      let (index, taken) := w.take place
      let drawn ← Word.add 64 w.drawn 1
      return (some index, { taken with drawn := drawn }, rng)
  else do
    let (index, rng) ← rng.drawFrom 0 w.count
    return (some index, w, rng)

theorem guardedRewind_eq (hv : (Spec.long min max granularity).validate = .ok ()) (w : Random) :
    w.guardedRewind (.long min max granularity) = .ok (w.rewind (.long min max granularity)) := by
  simp [guardedRewind, rewind, Spec.guardedCount_eq hv]

theorem guardedNext_eq {w : Random} (hw : w.Visits n) (hn : n < 2 ^ 64) (rng : Rng) :
    w.guardedNext rng = .ok (w.next rng) := by
  have hcount := hw.count_eq
  have hpos := hw.count_pos
  unfold guardedNext next
  by_cases hunique : w.unique
  · by_cases hend : w.count ≤ w.drawn
    · simp [hunique, hend]
    · have hadd : Word.add 64 w.drawn 1 = .ok (w.drawn + 1) := Word.add_ok (by omega)
      rw [if_pos hunique, if_pos hunique, if_neg hend, if_neg hend,
        rng.drawFrom_ok (show w.drawn < w.count by omega)]
      simp only [hadd, Guarded.ok_bind]
      rfl
  · simp [hunique, rng.drawFrom_zero (show 0 < w.count by omega)]

end Random

/-! ## Means of draws -/

namespace Cumulated

/-- Begins a pass. -/
def guardedRewind (spec : Spec) (w : Cumulated) : Guarded Cumulated := do
  let count ← spec.guardedCount
  return { w with count := count }

/-- The index at a fraction of the grid, and the last index for fractions too large. -/
def guardedIndexAt (count : Nat) (fraction : Float) : Guarded Nat := do
  let last ← Word.sub count 1
  return Min.min (fraction * (UInt64.ofNat count).toFloat).toUInt64.toNat last

/-- The next index. -/
def guardedNext (rng : Rng) (w : Cumulated) : Guarded (Option Nat × Cumulated × Rng) := do
  let (sum, rng) := sumDraws w.draws 0 rng
  let index ← guardedIndexAt w.count (sum / (UInt64.ofNat w.draws).toFloat)
  return (some index, w, rng)

theorem guardedRewind_eq (hv : (Spec.long min max granularity).validate = .ok ())
    (w : Cumulated) :
    w.guardedRewind (.long min max granularity) = .ok (w.rewind (.long min max granularity)) := by
  simp [guardedRewind, rewind, Spec.guardedCount_eq hv]

theorem guardedNext_eq {w : Cumulated} (hw : 0 < w.count) (rng : Rng) :
    w.guardedNext rng = .ok (w.next rng) := by
  simp [guardedNext, next, guardedIndexAt, indexAt, Word.sub_ok (show 1 ≤ w.count from hw)]

end Cumulated

/-! ## Random steps -/

namespace Drift

/-- Begins a pass. -/
def guardedRewind (spec : Spec) (w : Drift) : Guarded Drift := do
  let count ← spec.guardedCount
  return { w with count := count, current := some w.start }

/-- Where a step leads from an index. -/
def guardedMove (w : Drift) (index : Nat) (distance : Int) : Guarded (Option Nat) := do
  let target ← Wide.add index distance
  if w.unique then return if target < w.count then some target.toNat else none
  else
    let wrapped ← Wide.modulo target w.count
    return some wrapped.toNat

/-- The next index. -/
def guardedNext (rng : Rng) (w : Drift) : Guarded (Option Nat × Drift × Rng) :=
  match w.current with
  | none => return (none, w, rng)
  | some index => do
    let (distance, rng) ← rng.drawBetween w.least.toInt w.most.toInt
    let target ← w.guardedMove index distance
    return (some (Word.ofInt 64 index), { w with current := target }, rng)

theorem guardedRewind_eq (hv : (Spec.long min max granularity).validate = .ok ()) (w : Drift) :
    w.guardedRewind (.long min max granularity) = .ok (w.rewind (.long min max granularity)) := by
  simp [guardedRewind, rewind, Spec.guardedCount_eq hv]

/-- From an index of the grid no step of 64 bits leaves the signed words. -/
theorem guardedMove_eq (w : Drift) {c : Nat} {distance : Int} (hcount : w.count < 2 ^ 64)
    (hc : c < w.count) (hlow : -2 ^ 63 ≤ distance) (hhigh : distance < 2 ^ 63) :
    w.guardedMove c distance = .ok (w.move c distance) := by
  have hadd : Wide.add c distance = .ok (c + distance) := Wide.fit_ok (by omega) (by omega)
  have hmodulo : Wide.modulo (c + distance) w.count = .ok ((c + distance) % w.count) :=
    Wide.modulo_ok (by omega) (by omega) (by omega)
  simp only [guardedMove, move, hadd, hmodulo, Guarded.ok_bind, Guarded.pure_eq]
  split <;> rfl

theorem guardedNext_eq {w : Drift} (hw : w.Visits n) (hn : n < 2 ^ 64)
    (hsteps : w.least.toInt ≤ w.most.toInt) (rng : Rng) :
    w.guardedNext rng = .ok (w.next rng) := by
  unfold guardedNext next
  cases hc : w.current with
  | none => rfl
  | some c =>
    have hlt := hw.current_lt c hc
    have hcount := hw.count_eq
    have hlow := w.least.le_toInt
    have hhigh := w.most.toInt_lt
    have hle := rng.le_between w.least.toInt w.most.toInt
    have hge := rng.between_le hsteps
    have hmove := w.guardedMove_eq (show w.count < 2 ^ 64 by omega) (show c < w.count by omega)
      (show -2 ^ 63 ≤ (rng.between w.least.toInt w.most.toInt).1 by omega) (by omega)
    have hword : Word.ofInt 64 c = c := Word.ofInt_eq (by omega) (by omega)
    simp [rng.drawBetween_ok hsteps, hmove, hword]

end Drift

/-! ## Reversed counters -/

namespace BitReverse

/-- The number of zeros above the highest bit of a word of 64 bits. -/
def leadingZeros (n : Nat) : Nat := 64 - bitLength n

/-- The reversal of a word of 64 bits, as far as its first bits go. -/
def guardedReverse (bits value : Nat) : Guarded Nat :=
  if bits = 0 then return 0
  else do
    let places ← Word.sub 64 bits
    Word.shiftDown 64 (reverseBits 64 value) places

/-- Begins a pass. -/
def guardedRewind (spec : Spec) (_ : BitReverse) : Guarded BitReverse := do
  let count ← spec.guardedCount
  let last ← Word.sub count 1
  let bits ← Word.sub 64 (leadingZeros last)
  return ⟨count, bits, 2 ^ bits⟩

/-- The first reversed counter below `count`, when `left` counters up to `stop` are left, and how
many are left after it. -/
def guardedSeek (count bits stop : Nat) : (left : Nat) → Guarded (Option Nat × Nat)
  | 0 => return (none, 0)
  | left + 1 => do
    let counter := stop - (left + 1)
    let index ← guardedReverse bits (Word.ofInt 64 counter)
    let _ ← Word.add 128 counter 1
    if index < count then return (some index, left) else guardedSeek count bits stop left

/-- The next index. -/
def guardedNext (w : BitReverse) : Guarded (Option Nat × BitReverse) := do
  let stop ← Word.shiftUp 128 1 w.bits
  let (index, left) ← guardedSeek w.count w.bits stop w.left
  return (index, { w with left := left })

theorem bitLength_le {m : Nat} (h : m < 2 ^ 64) : bitLength m ≤ 64 := by
  unfold bitLength
  split
  · exact Nat.zero_le 64
  · rename_i hm
    exact (Nat.log2_lt hm).mpr h

/-- The counters of a grid have at most 64 bits. -/
theorem bits_rewind_le (w : BitReverse) : (w.rewind (.long min max granularity)).bits ≤ 64 := by
  have hn : (Spec.long min max granularity).sampleCount < 2 ^ 64 := Spec.sampleCount_long_lt
  exact bitLength_le (by omega)

theorem guardedRewind_eq (hv : (Spec.long min max granularity).validate = .ok ())
    (w : BitReverse) :
    w.guardedRewind (.long min max granularity) = .ok (w.rewind (.long min max granularity)) := by
  have hbits : bitLength ((Spec.long min max granularity).sampleCount - 1) ≤ 64 :=
    w.bits_rewind_le
  have hsub : Word.sub 64 (leadingZeros ((Spec.long min max granularity).sampleCount - 1)) =
      .ok (bitLength ((Spec.long min max granularity).sampleCount - 1)) := by
    rw [leadingZeros, Word.sub_ok (Nat.sub_le 64 _), Nat.sub_sub_self hbits]
  simp only [guardedRewind, rewind, Spec.guardedCount_eq hv, Word.sub_ok (Spec.sampleCount_pos _),
    hsub, Guarded.ok_bind, Guarded.pure_eq]
  rfl

theorem guardedReverse_eq {bits : Nat} (hbits : bits ≤ 64) (value : Nat) :
    guardedReverse bits value = .ok (reverseBits bits value) := by
  unfold guardedReverse
  by_cases hzero : bits = 0
  · subst hzero
    rfl
  · have hdiv := reverseBits_div bits (64 - bits) value
    rw [Nat.add_sub_cancel' hbits] at hdiv
    have hplaces : 64 - bits < 64 := by omega
    simp [hzero, Word.sub_ok hbits, Word.shiftDown_ok hplaces, hdiv]

theorem guardedSeek_eq (count : Nat) {bits left : Nat} (hbits : bits ≤ 64)
    (hleft : left ≤ 2 ^ bits) :
    guardedSeek count bits (2 ^ bits) left = .ok (seek count bits left) := by
  induction left with
  | zero => rfl
  | succ left ih =>
    have hstop : 2 ^ bits ≤ 2 ^ 64 := Nat.pow_le_pow_right (by decide) hbits
    have hword : Word.ofInt 64 (2 ^ bits - (left + 1) : Nat) = 2 ^ bits - (left + 1) :=
      Word.ofInt_eq (by omega) (by omega)
    have hadd : Word.add 128 (2 ^ bits - (left + 1)) 1 = .ok (2 ^ bits - (left + 1) + 1) :=
      Word.add_ok (by omega)
    simp only [guardedSeek, seek, hword, hadd, guardedReverse_eq hbits, ih (by omega),
      Guarded.ok_bind, Guarded.pure_eq]
    by_cases hlt : reverseBits bits (2 ^ bits - (left + 1)) < count
    · rw [if_pos hlt]
      exact congrArg Except.ok (if_pos hlt).symm
    · rw [if_neg hlt]
      exact congrArg Except.ok (if_neg hlt).symm

theorem guardedNext_eq {w : BitReverse} (hw : w.Visits n) (hbits : w.bits ≤ 64) :
    w.guardedNext = .ok w.next := by
  have hstop : Word.shiftUp 128 1 w.bits = .ok (2 ^ w.bits) := Word.shiftUp_one (by omega)
  simp [guardedNext, next, hstop, guardedSeek_eq w.count hbits hw.left_le]

end BitReverse

/-! ## Members of a recurrence -/

namespace Recurrence

/-- The grid index of a number, if it is a grid point. -/
def guardedGridIndex (spec : Spec) (term : Nat) : Guarded (Option Nat) :=
  match spec with
  | .long min _ granularity => do
    let offset ← Wide.sub term min.toInt
    if offset < 0 then return none
    else
      let left ← Wide.rem offset granularity.toInt
      if left ≠ 0 then return none
      else
        let index ← Wide.div offset granularity.toInt
        return some (Word.ofInt 64 index)
  | .double min max granularity => do
    let x := Binary.ofInt term
    match ← (Spec.double min max granularity).guardedFloorIndex x with
    | none => return none
    | some index =>
      let point ← (Spec.double min max granularity).guardedValueAt index
      return if (point.toFloat - x).abs ≤ granularity * 1e-9 then some index else none

/-- The next index among those of the given members.  A member is compared with the upper bound
before its distance from the lower one is taken.  No member is broken off itself: one whose third
successor does not fit a word is not among them. -/
def guardedSeek (unique : Bool) (spec : Spec) (last : Option Nat) :
    List Nat → Guarded (Option Nat × List Nat × Option Nat)
  | [] => return (none, [], last)
  | term :: rest =>
    if beyondMax spec term then return (none, [], last)
    else if unique && last == some term then guardedSeek unique spec last rest
    else do
      match ← guardedGridIndex spec term with
      | some index => return (some index, rest, some term)
      | none => guardedSeek unique spec last rest

/-- The next index. -/
def guardedNext (w : Recurrence) : Guarded (Option Nat × Recurrence) := do
  let (index, rest, last) ← guardedSeek w.unique w.spec w.last w.rest
  return (index, { w with rest := rest, last := last })

/-- The distance of a member that is not beyond the range fits, and so does its index. -/
theorem guardedGridIndex_eq (hv : (Spec.long min max granularity).validate = .ok ()) {term : Nat}
    (hmax : beyondMax (.long min max granularity) term = false) :
    guardedGridIndex (.long min max granularity) term =
      .ok (gridIndex? (.long min max granularity) term) := by
  obtain ⟨-, hg⟩ := Spec.validate_long.mp hv
  have hle : (term : Int) ≤ max.toInt := by simpa [beyondMax] using hmax
  have hmin := min.le_toInt
  have hmin' := min.toInt_lt
  have hmax' := max.toInt_lt
  have hsub : Wide.sub term min.toInt = .ok (term - min.toInt) :=
    Wide.fit_ok (by omega) (by omega)
  have hrem : Wide.rem (term - min.toInt) granularity.toInt =
      .ok ((term - min.toInt).tmod granularity.toInt) := Wide.rem_ok (by omega) (by omega) hg
  have hdiv : Wide.div (term - min.toInt) granularity.toInt =
      .ok ((term - min.toInt).tdiv granularity.toInt) := Wide.div_ok (by omega) (by omega) hg
  simp only [guardedGridIndex, gridIndex?, hsub, hrem, hdiv, Guarded.ok_bind, Guarded.pure_eq,
    Int.ofNat_eq_natCast]
  by_cases hneg : (term : Int) - min.toInt < 0
  · simp [hneg]
  · by_cases hon : (term - min.toInt : Int).tmod granularity.toInt = 0
    · -- above the lower bound both ways of dividing agree
      have hquotient := Int.tdiv_eq_ediv_of_nonneg (b := granularity.toInt) (Int.not_lt.mp hneg)
      have hnonneg := Int.ediv_nonneg (Int.not_lt.mp hneg) (Int.le_of_lt hg)
      have hself := Int.ediv_le_self granularity.toInt (Int.not_lt.mp hneg)
      have hword : Word.ofInt 64 ((term - min.toInt).tdiv granularity.toInt) =
          ((term - min.toInt) / granularity.toInt).toNat := by
        rw [hquotient]
        exact Word.ofInt_eq hnonneg (by omega)
      simp [hneg, hon, hword]
    · simp [hneg, hon]

theorem guardedSeek_eq (hv : (Spec.long min max granularity).validate = .ok ()) (unique : Bool)
    (last : Option Nat) (rest : List Nat) :
    guardedSeek unique (.long min max granularity) last rest =
      .ok (seek unique (.long min max granularity) last rest) := by
  induction rest with
  | nil => rfl
  | cons term rest ih =>
    unfold guardedSeek seek
    cases hmax : beyondMax (.long min max granularity) term with
    | true => rfl
    | false =>
      by_cases hrepeated : (unique && last == some term) = true
      · simp [hrepeated, ih]
      · rw [guardedGridIndex_eq hv hmax]
        cases gridIndex? (.long min max granularity) term with
        | none => simp [hrepeated, ih]
        | some index => simp [hrepeated]

theorem guardedNext_eq (hv : (Spec.long min max granularity).validate = .ok ()) {w : Recurrence}
    (hw : w.Visits (.long min max granularity)) : w.guardedNext = .ok w.next := by
  have hseek := guardedSeek_eq hv w.unique w.last w.rest
  rw [← hw.spec_eq] at hseek
  simp [guardedNext, next, hseek]

end Recurrence

/-! ## Walks of all kinds -/

/-- Begins a pass. -/
def guardedRewind (spec : Spec) : Walk → Guarded Walk
  | random w => (w.guardedRewind spec).map random
  | shuffle w => (w.guardedRewind spec).map shuffle
  | cumulated w => (w.guardedRewind spec).map cumulated
  | drift w => (w.guardedRewind spec).map drift
  | step w => (w.guardedRewind spec).map step
  | cycle w => (w.guardedRewind spec).map cycle
  | wedge w => (w.guardedRewind spec).map wedge
  | bitReverse w => (w.guardedRewind spec).map bitReverse
  -- the members are taken from their beginning, which needs no arithmetic
  | recurrence w => return recurrence (w.rewind spec)
  | first w => (w.guardedRewind spec).map first

/-- The next index. -/
def guardedNext (rng : Rng) : Walk → Guarded (Option Nat × Walk × Rng)
  | random w => (w.guardedNext rng).map (drawnBy random)
  | shuffle w => w.guardedNext.map (undrawn shuffle rng)
  | cumulated w => (w.guardedNext rng).map (drawnBy cumulated)
  | drift w => (w.guardedNext rng).map (drawnBy drift)
  | step w => w.guardedNext.map (undrawn step rng)
  | cycle w => w.guardedNext.map (undrawn cycle rng)
  | wedge w => w.guardedNext.map (undrawn wedge rng)
  | bitReverse w => w.guardedNext.map (undrawn bitReverse rng)
  | recurrence w => w.guardedNext.map (undrawn recurrence rng)
  | first w => w.guardedNext.map (undrawn first rng)

/-- The bounds of random steps are in order, and reversed counters have at most 64 bits. -/
def Sized : Walk → Prop
  | drift w => w.least.toInt ≤ w.most.toInt
  | bitReverse w => w.bits ≤ 64
  | random _ | shuffle _ | cumulated _ | step _ | cycle _ | wedge _ | recurrence _ | first _ => True

theorem sized_rewind {w : Walk} (hw : w.Sized) : (w.rewind (.long min max granularity)).Sized := by
  cases w with
  | bitReverse w => exact w.bits_rewind_le
  | _ => exact hw

theorem sized_next {w : Walk} (hw : w.Sized) (rng : Rng) : (w.next rng).2.1.Sized := by
  cases w with
  | drift w =>
    show (w.next rng).2.1.least.toInt ≤ (w.next rng).2.1.most.toInt
    unfold Drift.next
    split <;> exact hw
  | _ => exact hw

/-- **No pass is broken off at its beginning**, whatever the walk and the grid are. -/
theorem guardedRewind_eq (hv : (Spec.long min max granularity).validate = .ok ()) (w : Walk) :
    w.guardedRewind (.long min max granularity) = .ok (w.rewind (.long min max granularity)) := by
  cases w with
  | random w => simp [guardedRewind, rewind, w.guardedRewind_eq hv]
  | shuffle w => simp [guardedRewind, rewind, w.guardedRewind_eq hv]
  | cumulated w => simp [guardedRewind, rewind, w.guardedRewind_eq hv]
  | drift w => simp [guardedRewind, rewind, w.guardedRewind_eq hv]
  | step w => simp [guardedRewind, rewind, w.guardedRewind_eq hv]
  | cycle w => simp [guardedRewind, rewind, w.guardedRewind_eq hv]
  | wedge w => simp [guardedRewind, rewind, w.guardedRewind_eq hv]
  | bitReverse w => simp [guardedRewind, rewind, w.guardedRewind_eq hv]
  | recurrence w => rfl
  | first w => simp [guardedRewind, rewind, w.guardedRewind_eq hv]

/-- **No step of a pass is broken off.** -/
theorem guardedNext_eq (hv : (Spec.long min max granularity).validate = .ok ()) {w : Walk}
    (hw : w.Visits (.long min max granularity)) (hsized : w.Sized) (rng : Rng) :
    w.guardedNext rng = .ok (w.next rng) := by
  have hn : (Spec.long min max granularity).sampleCount < 2 ^ 64 := Spec.sampleCount_long_lt
  cases w with
  | random w => simp [guardedNext, next, Random.guardedNext_eq hw hn]
  | shuffle w => simp [guardedNext, next, Shuffle.guardedNext_eq hw hn]
  | cumulated w =>
    have hpos : 0 < w.count := (show w.count = _ from hw) ▸ Spec.sampleCount_pos _
    simp [guardedNext, next, Cumulated.guardedNext_eq hpos]
  | drift w => simp [guardedNext, next, Drift.guardedNext_eq hw hn hsized]
  | step w => simp [guardedNext, next, Step.guardedNext_eq hw hn]
  | cycle w => simp [guardedNext, next, Cycle.guardedNext_eq hw hn]
  | wedge w => simp [guardedNext, next, Wedge.guardedNext_eq hw hn]
  | bitReverse w => simp [guardedNext, next, BitReverse.guardedNext_eq hw hsized]
  | recurrence w => simp [guardedNext, next, Recurrence.guardedNext_eq hv hw]
  | first w => simp [guardedNext, next, First.guardedNext_eq hw hn]

end SynthData.Walk
