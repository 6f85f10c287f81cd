import SynthData.Decimal.Binary
import SynthData.Grid.Generator

/-!
# Members of a recurrence

The walk visits the grid points that are members of an integer sequence, in ascending order:
Fibonacci numbers `0, 1, 1, 2, 3, 5, …`, each the sum of the two before it, or Padovan numbers
`1, 1, 1, 2, 2, 3, 4, …`, each the sum of the second and the third before it. Members that occur
twice are visited twice, unless no index may be repeated.

Members are considered as long as the third member after them stays below 2¹²⁷.
-/

namespace SynthData.Walk

/-- The sequences whose members can be visited. -/
inductive Sequence where
  | fibonacci
  | padovan
deriving DecidableEq

namespace Sequence

/-- Three members in a row. -/
structure Triple where
  first : Nat
  second : Nat
  third : Nat

/-- The first three members. -/
def start : Sequence → Triple
  | fibonacci => ⟨0, 1, 1⟩
  | padovan => ⟨1, 1, 1⟩

/-- The member after three members in a row. -/
def following (s : Sequence) (t : Triple) : Nat :=
  match s with
  | fibonacci => t.second + t.third
  | padovan => t.first + t.second

/-- The bound for the members that are computed. -/
def bound : Nat := Nat.pow 2 127

/-- The members from a triple on whose third successor stays below the bound, at most `most` of
them. -/
def membersFrom (s : Sequence) : (most : Nat) → Triple → List Nat
  | 0, _ => []
  | most + 1, t =>
    if s.following t < bound then
      t.first :: membersFrom s most ⟨t.second, t.third, s.following t⟩
    else []

/-- All members that are considered. Both sequences pass the bound within their first 320
members. -/
def members (s : Sequence) : List Nat :=
  s.membersFrom 320 s.start

end Sequence

/-- A walk over the members of a sequence. -/
structure Recurrence where
  sequence : Sequence
  unique : Bool
  spec : Spec
  /-- The members that have not been looked at. -/
  rest : List Nat
  /-- The member visited last. -/
  last : Option Nat

namespace Recurrence

/-- A walk that has not begun. -/
def new (sequence : Sequence) (unique : Bool) (spec : Spec) : Recurrence :=
  ⟨sequence, unique, spec, sequence.members, none⟩

/-- Begins a pass. -/
def rewind (spec : Spec) (w : Recurrence) : Recurrence :=
  .new w.sequence w.unique spec

/-- Whether a number is greater than the upper bound of a range. -/
def beyondMax (spec : Spec) (term : Nat) : Bool :=
  match spec with
  | .long _ max _ => decide (max.toInt < term)
  | .double _ max _ => max < Binary.ofInt term

/-- The grid index of a number, if it is a grid point. -/
def gridIndex? (spec : Spec) (term : Nat) : Option Nat :=
  match spec with
  | .long min _ granularity =>
    let offset := Int.ofNat term - min.toInt
    if offset < 0 ∨ Int.tmod offset granularity.toInt ≠ 0 then none
    else some (offset / granularity.toInt).toNat
  | .double _ _ granularity =>
    let x := Binary.ofInt term
    match spec.floorIndex? x with
    | none => none
    | some index =>
      if ((spec.valueAt index).toFloat - x).abs ≤ granularity * 1e-9 then some index else none

/-- The next index among those of the given members; then the members after it and the member
visited. -/
def seek (unique : Bool) (spec : Spec) (last : Option Nat) :
    List Nat → Option Nat × List Nat × Option Nat
  | [] => (none, [], last)
  | term :: rest =>
    if beyondMax spec term then (none, [], last)
    else if unique && last == some term then seek unique spec last rest
    else
      match gridIndex? spec term with
      | some index => (some index, rest, some term)
      | none => seek unique spec last rest

/-- The next index. -/
def next (w : Recurrence) : Option Nat × Recurrence :=
  let (index, rest, last) := seek w.unique w.spec w.last w.rest
  (index, { w with rest := rest, last := last })

end Recurrence
end SynthData.Walk
