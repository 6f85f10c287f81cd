import Std.Data.HashMap
import SynthData.Grid.Generator

/-!
# Walks by random draws

These walks draw from the random stream that is handed to them.
-/

namespace SynthData.Walk

/-! ## Indices in random order

Without repetitions the walk is a random permutation of the indices: draw by draw a Fisher–Yates
shuffle, of which only the places that differ from the identity are stored. The `k`-th draw is a
place from `k` on; the index stored there is handed out, and the index of place `k` moves there.

With repetitions each index is drawn from all of them.
-/

/-- A walk in random order. -/
structure Random where
  unique : Bool
  count : Nat
  /-- The number of indices handed out in this pass. -/
  drawn : Nat
  /-- The places of the permutation that do not hold their own index. -/
  swaps : Std.HashMap Nat Nat

namespace Random

/-- A walk that has not begun. -/
def new (unique : Bool) : Random := ⟨unique, 0, 0, ∅⟩

/-- Begins a pass. -/
def rewind (spec : Spec) (w : Random) : Random :=
  ⟨w.unique, spec.sampleCount, 0, ∅⟩

/-- Hands out the index at a place, and moves the index of the first open place there. -/
def take (w : Random) (place : Nat) : Nat × Random :=
  match w with
  | ⟨unique, count, drawn, swaps⟩ =>
    let atPlace := swaps.getD place place
    let atDrawn := swaps.getD drawn drawn
    let swaps := swaps.erase drawn
    let swaps := if place = drawn then swaps else swaps.insert place atDrawn
    (atPlace, ⟨unique, count, drawn + 1, swaps⟩)

/-- The next index. -/
def next (rng : Rng) (w : Random) : Option Nat × Random × Rng :=
  if w.unique then
    if w.count ≤ w.drawn then (none, w, rng)
    else
      let (offset, rng) := rng.below (w.count - w.drawn)
      let (index, w) := w.take (w.drawn + offset)
      (some index, w, rng)
  else
    let (index, rng) := rng.below w.count
    (some index, w, rng)

end Random

/-! ## Indices around the middle

Each index is the mean of several uniform draws, stretched over the grid. The more draws, the more
the indices gather around the middle.
-/

/-- A walk by means of draws. -/
structure Cumulated where
  draws : Nat
  count : Nat

namespace Cumulated

/-- A walk that has not begun. -/
def new (draws : Nat) : Cumulated := ⟨draws, 0⟩

/-- Begins a pass. -/
def rewind (spec : Spec) (w : Cumulated) : Cumulated :=
  { w with count := spec.sampleCount }

/-- Adds a number of uniform draws to a sum. -/
def sumDraws : (draws : Nat) → Float → Rng → Float × Rng
  | 0, sum, rng => (sum, rng)
  | draws + 1, sum, rng =>
    let (x, rng) := rng.unit
    sumDraws draws (sum + x) rng

/-- The index at a fraction of the grid, and the last index for fractions too large. -/
def indexAt (count : Nat) (fraction : Float) : Nat :=
  min (fraction * (UInt64.ofNat count).toFloat).toUInt64.toNat (count - 1)

/-- The next index. -/
def next (rng : Rng) (w : Cumulated) : Option Nat × Cumulated × Rng :=
  let (sum, rng) := sumDraws w.draws 0 rng
  (some (indexAt w.count (sum / (UInt64.ofNat w.draws).toFloat)), w, rng)

end Cumulated

/-! ## Random steps

The walk begins at an index and moves by a random number of grid points each time. It wraps around
at either end. A walk without repetitions, whose steps all go up, ends instead of wrapping.
-/

/-- A walk by random steps. -/
structure Drift where
  start : Nat
  least : Int64
  most : Int64
  unique : Bool
  count : Nat
  /-- The next index, if the walk is not over. -/
  current : Option Nat

namespace Drift

/-- A walk that has not begun. -/
def new (start : Nat) (least most : Int64) (unique : Bool) : Drift :=
  ⟨start, least, most, unique, 0, none⟩

/-- Begins a pass. -/
def rewind (spec : Spec) (w : Drift) : Drift :=
  { w with count := spec.sampleCount, current := some w.start }

/-- Where a step leads from an index. -/
def move (w : Drift) (index : Nat) (step : Int) : Option Nat :=
  let target := Int.ofNat index + step
  if w.unique then if target < w.count then some target.toNat else none
  else some (target % w.count).toNat

/-- The next index. The step after it is drawn at once. -/
def next (rng : Rng) (w : Drift) : Option Nat × Drift × Rng :=
  match w.current with
  | none => (none, w, rng)
  | some index =>
    let (step, rng) := rng.between w.least.toInt w.most.toInt
    (some index, { w with current := w.move index step }, rng)

end Drift

end SynthData.Walk
