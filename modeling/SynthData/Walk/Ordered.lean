import SynthData.Grid.Generator

/-!
# Walks in a fixed order

These walks draw nothing: range and parameters say which indices they visit.
-/

namespace SynthData.Walk

/-! ## The first indices

The walk visits a fixed number of indices from 0 on, or all of them if there are fewer.
-/

/-- A walk over the first indices. -/
structure First where
  size : Nat
  stop : Nat
  current : Nat

namespace First

/-- A walk that has not begun. -/
def new (size : Nat) : First := ⟨size, 0, 0⟩

/-- Begins a pass. -/
def rewind (spec : Spec) (w : First) : First :=
  ⟨w.size, min w.size spec.sampleCount, 0⟩

/-- The next index. -/
def next (w : First) : Option Nat × First :=
  if w.stop ≤ w.current then (none, w)
  else (some w.current, { w with current := w.current + 1 })

end First

/-! ## Indices in ascending order

The walk visits the indices from 0 on. After the last one it begins again, or ends when no index
may be repeated.
-/

/-- A walk in ascending order. -/
structure Cycle where
  unique : Bool
  count : Nat
  /-- The next index, if the walk is not over. -/
  current : Option Nat

namespace Cycle

/-- A walk that has not begun. -/
def new (unique : Bool) : Cycle := ⟨unique, 0, none⟩

/-- Begins a pass. -/
def rewind (spec : Spec) (w : Cycle) : Cycle :=
  { w with count := spec.sampleCount, current := some 0 }

/-- The next index. -/
def next (w : Cycle) : Option Nat × Cycle :=
  match w.current with
  | none => (none, w)
  | some index =>
    let current :=
      if index + 1 < w.count then some (index + 1)
      else if w.unique then none
      else some 0
    (some index, { w with current := current })

end Cycle

/-! ## From both ends to the middle

The walk takes the least index that is left and the largest one in turn, until both are the same.
-/

/-- A walk from both ends. -/
structure Wedge where
  low : Nat
  high : Nat
  /-- Whether it is the lower end's turn. -/
  fromLow : Bool
  done : Bool

namespace Wedge

/-- A walk that has not begun. -/
def new : Wedge := ⟨0, 0, true, true⟩

/-- Begins a pass. -/
def rewind (spec : Spec) (_ : Wedge) : Wedge :=
  ⟨0, spec.sampleCount - 1, true, false⟩

/-- The next index. -/
def next (w : Wedge) : Option Nat × Wedge :=
  if w.done then (none, w)
  else
    let index := if w.fromLow then w.low else w.high
    let w :=
      if w.low = w.high then { w with done := true }
      else if w.fromLow then { w with low := w.low + 1 }
      else { w with high := w.high - 1 }
    (some index, { w with fromLow := !w.fromLow })

end Wedge

/-! ## Indices by strides

The walk visits every `increment`-th index from 0 on, then every `increment`-th index from 1 on,
and so forth until each index has been visited once.
-/

/-- A walk by strides. -/
structure Shuffle where
  increment : Nat
  count : Nat
  /-- Where the present round began. -/
  offset : Nat
  /-- The next index, if the walk is not over. -/
  current : Option Nat

namespace Shuffle

/-- A walk that has not begun. -/
def new (increment : Nat) : Shuffle := ⟨increment, 0, 0, none⟩

/-- Begins a pass. -/
def rewind (spec : Spec) (w : Shuffle) : Shuffle :=
  ⟨w.increment, spec.sampleCount, 0, some 0⟩

/-- The next index. After the last one of a round the next round begins, if there is one. -/
def next (w : Shuffle) : Option Nat × Shuffle :=
  match w.current with
  | none => (none, w)
  | some index =>
    if index + w.increment < w.count then
      (some index, { w with current := some (index + w.increment) })
    else
      let offset := w.offset + 1
      let current := if offset < w.increment ∧ offset < w.count then some offset else none
      (some index, { w with offset := offset, current := current })

end Shuffle

/-! ## Indices spread evenly

The walk counts up and reverses the bits of the counter, which spreads neighbouring visits over the
whole grid. The counter has as many bits as the last index; reversals past the end are skipped.
-/

/-- The number that has the lowest `bits` bits of another one in reverse order. -/
def reverseBits : (bits : Nat) → Nat → Nat
  | 0, _ => 0
  | bits + 1, n => n % 2 * Nat.pow 2 bits + reverseBits bits (n / 2)

/-- The number of bits that a number needs; zero needs none. -/
def bitLength (n : Nat) : Nat :=
  if n = 0 then 0 else n.log2 + 1

/-- A walk by reversed counters. -/
structure BitReverse where
  count : Nat
  bits : Nat
  /-- The number of counters that have not been looked at. -/
  left : Nat

namespace BitReverse

/-- A walk that has not begun. -/
def new : BitReverse := ⟨0, 0, 0⟩

/-- Begins a pass. -/
def rewind (spec : Spec) (_ : BitReverse) : BitReverse :=
  let bits := bitLength (spec.sampleCount - 1)
  ⟨spec.sampleCount, bits, Nat.pow 2 bits⟩

/-- The first reversed counter below `count`, when `left` counters are left, and how many are left
after it. -/
def seek (count bits : Nat) : (left : Nat) → Option Nat × Nat
  | 0 => (none, 0)
  | left + 1 =>
    let index := reverseBits bits (Nat.pow 2 bits - (left + 1))
    if index < count then (some index, left) else seek count bits left

/-- The next index. -/
def next (w : BitReverse) : Option Nat × BitReverse :=
  let (index, left) := seek w.count w.bits w.left
  (index, { w with left := left })

end BitReverse

/-! ## Equal steps

The walk moves by the same number of grid points each time: upwards from the least point, or
downwards from the last one when the number is negative. It may begin elsewhere, and it ends when
it leaves the grid or passes a limit.
-/

/-- A walk by equal steps. -/
structure Step where
  delta : Int64
  initial : Option Float
  limit : Option Float
  /-- The least index that the walk may visit. -/
  low : Int
  /-- The largest index that the walk may visit. -/
  high : Int
  current : Int

namespace Step

/-- A walk that has not begun. -/
def new (delta : Int64) (initial limit : Option Float) : Step :=
  ⟨delta, initial, limit, 0, 0, 0⟩

/-- The least and the largest index that a limit leaves, of which the larger is below the smaller
when it leaves none. An upper limit holds for walks that do not go down, a lower limit for walks
that do. -/
def bounds (spec : Spec) (delta : Int64) (limit : Option Float) : Int × Int :=
  let top : Int := spec.sampleCount - 1
  match limit with
  | none => (0, top)
  | some limit =>
    if 0 ≤ delta then
      match spec.floorIndex? (lesser limit spec.max.toFloat) with
      | some i => (0, min top i)
      | none => (0, -1)
    else
      match spec.floorIndex? (greater limit spec.min.toFloat) with
      | some i => (if (spec.valueAt i).toFloat < limit then i + 1 else i, top)
      | none => (top + 1, top)

/-- Begins a pass. -/
def rewind (spec : Spec) (w : Step) : Step :=
  let (low, high) := bounds spec w.delta w.limit
  let current := match w.initial.bind spec.floorIndex? with
    | some i => Int.ofNat i
    | none => if w.delta < 0 then high else low
  { w with low := low, high := high, current := current }

/-- The next index. -/
def next (w : Step) : Option Nat × Step :=
  if w.current < w.low ∨ w.high < w.current then (none, w)
  else (some w.current.toNat, { w with current := w.current + w.delta.toInt })

end Step

end SynthData.Walk
