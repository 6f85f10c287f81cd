import SynthData.Fault.Basic

/-!
# Cumulative tables of weights

A choice in proportion to weights is made with a table of their running sums, divided by the total.
A draw between zero and one selects the first position whose entry is not below the draw, which is
found by bisection; so each position is selected by an interval of draws that is as long as its
share of the total.

The last entry is one whatever the rounding, so that every draw finds a position. Weights must be
finite and not negative; if all of them are zero there is no table.

The definitions take any numbers that can be added, divided and compared, so they can be read over
doubles as well as over exact numbers.
-/

namespace SynthData

/-- Numbers that can serve as weights. -/
class Weighing (α : Type) extends Add α, Div α where
  zero : α
  one : α
  /-- Whether the number may be a weight. -/
  admits : α → Bool
  isZero : α → Bool
  below : α → α → Bool

/-- Doubles serve as weights unless they are negative or not finite. -/
instance : Weighing Float where
  zero := 0
  one := 1
  admits w := w.isFinite && !(w < 0)
  isZero w := w == 0
  below a b := a < b

namespace Weighing

variable {α : Type} [Weighing α]

/-- The running sums of weights, after those in `sums`, with the last of them. A number that may
not be a weight ends the work and is reported with its position. -/
def runningSums (sums : Array α) (total : α) : List α → Except (Nat × α) (Array α × α)
  | [] => .ok (sums, total)
  | w :: ws =>
    if admits w then runningSums (sums.push (total + w)) (total + w) ws
    else .error (sums.size, w)

/-- The running sums of weights as shares of the total, the last one being one. There is no table
if the total is zero. -/
def cumulativeTable (weights : List α) : Except (Nat × α) (Option (Array α)) :=
  match runningSums #[] zero weights with
  | .error bad => .error bad
  | .ok (sums, total) =>
    if isZero total then .ok none
    else
      let shares := sums.map (· / total)
      .ok (some (shares.setIfInBounds (shares.size - 1) one))

/-- The first position from `low` up to `high` that is not passed, if the passed ones come first.
Each step halves the part that is left, and `steps` bounds their number. -/
def bisect (passed : Nat → Bool) : (steps : Nat) → (low high : Nat) → Nat
  | 0, low, _ => low
  | steps + 1, low, high =>
    if low < high then
      let middle := (low + high) / 2
      if passed middle then bisect passed steps (middle + 1) high
      else bisect passed steps low middle
    else low

/-- The first position whose entry is not below a draw, or the last position if there is none. -/
def lowerBound (table : Array α) (draw : α) : Nat :=
  let passed (i : Nat) : Bool := match table[i]? with
    | some entry => below entry draw
    | none => false
  min (bisect passed table.size 0 table.size) (table.size - 1)

end Weighing

/-- The table of weights that are doubles, with a bad weight as a failure. -/
def weightTable (weights : List Float) : Except Fault (Option (Array Float)) :=
  match Weighing.cumulativeTable weights with
  | .error (position, weight) => .error (.badWeight weight position)
  | .ok table => .ok table

end SynthData
