import SynthData.Walk.Drawn
import SynthData.Walk.Ordered
import SynthData.Walk.Recurrence

/-!
# The walks of the built-in strategies

`Walk` is a walk of any of the built-in kinds, and `Walk.kind` says how it begins and goes on.
-/

namespace SynthData

/-- A walk of one of the built-in kinds. -/
inductive Walk where
  | random (w : Walk.Random)
  | shuffle (w : Walk.Shuffle)
  | cumulated (w : Walk.Cumulated)
  | drift (w : Walk.Drift)
  | step (w : Walk.Step)
  | cycle (w : Walk.Cycle)
  | wedge (w : Walk.Wedge)
  | bitReverse (w : Walk.BitReverse)
  | recurrence (w : Walk.Recurrence)
  | first (w : Walk.First)

namespace Walk

/-- Begins a pass. -/
def rewind (spec : Spec) : Walk → Walk
  | random w => random (w.rewind spec)
  | shuffle w => shuffle (w.rewind spec)
  | cumulated w => cumulated (w.rewind spec)
  | drift w => drift (w.rewind spec)
  | step w => step (w.rewind spec)
  | cycle w => cycle (w.rewind spec)
  | wedge w => wedge (w.rewind spec)
  | bitReverse w => bitReverse (w.rewind spec)
  | recurrence w => recurrence (w.rewind spec)
  | first w => first (w.rewind spec)

/-- The result of a walk that draws nothing, with the stream it was handed. -/
def undrawn {ω : Type} (wrap : ω → Walk) (rng : Rng) (result : Option Nat × ω) :
    Option Nat × Walk × Rng :=
  (result.1, wrap result.2, rng)

/-- The result of a walk that draws. -/
def drawnBy {ω : Type} (wrap : ω → Walk) (result : Option Nat × ω × Rng) :
    Option Nat × Walk × Rng :=
  (result.1, wrap result.2.1, result.2.2)

/-- The next index. -/
def next (rng : Rng) : Walk → Option Nat × Walk × Rng
  | random w => drawnBy random (w.next rng)
  | shuffle w => undrawn shuffle rng w.next
  | cumulated w => drawnBy cumulated (w.next rng)
  | drift w => drawnBy drift (w.next rng)
  | step w => undrawn step rng w.next
  | cycle w => undrawn cycle rng w.next
  | wedge w => undrawn wedge rng w.next
  | bitReverse w => undrawn bitReverse rng w.next
  | recurrence w => undrawn recurrence rng w.next
  | first w => undrawn first rng w.next

/-- The kind of walk that all of them together are. Beginning a pass never fails. -/
def kind : IndexWalk Walk where
  rewind spec w := .ok (w.rewind spec)
  next := next

end Walk
end SynthData
