import Mathlib.Algebra.Group.Int.Defs
import Mathlib.Algebra.Group.Nat.Defs
import SynthData.Random.Streams

/-!
# Operations that may be broken off

Numbers of a program have the bits of their words, and lists have an end.  An
operation that leaves them is broken off, and so is whatever needs its result.
`Guarded α` is the result of a computation that may be broken off: an `α`, or the
`Trap` that was met.

The operations of this module are the ones that can meet a trap: arithmetic in
words without a sign (`Word`) and in signed words of 128 bits (`Wide`), draws from
a range, and lists that are read or changed at a position.  For each of them
there is a lemma that says when it meets none.
-/
namespace SynthData

/-- What breaks an operation off. -/
inductive Trap where
  /-- A number is drawn from a range that has none. -/
  | emptyRange
  /-- A list is read or changed past its end. -/
  | outOfBounds
  /-- A number is divided by zero. -/
  | zeroDivisor
  /-- A result does not fit its word, or a word is shifted by more than its bits. -/
  | overflow
deriving DecidableEq, Repr

/-- The result of a computation that may be broken off. -/
abbrev Guarded (α : Type) := Except Trap α

namespace Guarded

variable {α β : Type}

@[simp] theorem pure_eq (a : α) : (pure a : Guarded α) = .ok a := rfl

@[simp] theorem ok_bind (a : α) (f : α → Guarded β) : (Except.ok a >>= f : Guarded β) = f a := rfl

@[simp] theorem map_ok (f : α → β) (a : α) : Except.map f (.ok a : Guarded α) = .ok (f a) := rfl

/-- What goes through for each entry goes through for a list. -/
theorem mapM_ok {f : α → Guarded β} {g : α → β} {l : List α} (h : ∀ a ∈ l, f a = .ok (g a)) :
    l.mapM f = .ok (l.map g) := by
  induction l with
  | nil => rfl
  | cons a l ih =>
    rw [List.mapM_cons, h a List.mem_cons_self, ih fun b hb => h b (List.mem_cons_of_mem a hb)]
    rfl

end Guarded

/-! ## Words without a sign -/

namespace Word

/-- A number, if it has at most so many bits. -/
def fit (bits n : Nat) : Guarded Nat :=
  if n < 2 ^ bits then .ok n else .error .overflow

/-- The sum of two words. -/
def add (bits a b : Nat) : Guarded Nat := fit bits (a + b)

/-- The sum of two words, if it has at most so many bits.  Nothing is broken off. -/
def add? (bits a b : Nat) : Option Nat :=
  if a + b < 2 ^ bits then some (a + b) else none

/-- The difference of two words. -/
def sub (a b : Nat) : Guarded Nat :=
  if b ≤ a then .ok (a - b) else .error .overflow

/-- The quotient of two words. -/
def div (a b : Nat) : Guarded Nat :=
  if b = 0 then .error .zeroDivisor else .ok (a / b)

/-- A word shifted up; what is beyond its highest bit is lost. -/
def shiftUp (bits n places : Nat) : Guarded Nat :=
  if places < bits then .ok (n * 2 ^ places % 2 ^ bits) else .error .overflow

/-- A word shifted down; what is below its lowest bit is lost. -/
def shiftDown (bits n places : Nat) : Guarded Nat :=
  if places < bits then .ok (n / 2 ^ places) else .error .overflow

/-- The lowest bits of an integer, as a word. -/
def ofInt (bits : Nat) (n : Int) : Nat := (n % 2 ^ bits).toNat

variable {bits a b n places : Nat}

theorem add_ok (h : a + b < 2 ^ bits) : add bits a b = .ok (a + b) := if_pos h

theorem sub_ok (h : b ≤ a) : sub a b = .ok (a - b) := if_pos h

theorem div_ok (h : b ≠ 0) : div a b = .ok (a / b) := if_neg h

theorem shiftUp_one (h : places < bits) : shiftUp bits 1 places = .ok (2 ^ places) := by
  have hlt : 2 ^ places < 2 ^ bits := Nat.pow_lt_pow_of_lt (by decide) h
  rw [shiftUp, if_pos h, Nat.one_mul, Nat.mod_eq_of_lt hlt]

theorem shiftDown_ok (h : places < bits) : shiftDown bits n places = .ok (n / 2 ^ places) :=
  if_pos h

/-- An integer that fits a word is its own lowest bits. -/
theorem ofInt_eq {n : Int} (hnonneg : 0 ≤ n) (hlt : n < 2 ^ bits) : ofInt bits n = n.toNat := by
  rw [ofInt, Int.emod_eq_of_lt hnonneg hlt]

end Word

/-! ## Signed words of 128 bits -/

namespace Wide

/-- An integer, if it fits. -/
def fit (n : Int) : Guarded Int :=
  if -2 ^ 127 ≤ n ∧ n < 2 ^ 127 then .ok n else .error .overflow

/-- The sum of two words. -/
def add (a b : Int) : Guarded Int := fit (a + b)

/-- The difference of two words. -/
def sub (a b : Int) : Guarded Int := fit (a - b)

/-- The product of two words. -/
def mul (a b : Int) : Guarded Int := fit (a * b)

/-- The quotient of two words, rounded towards zero.  That of the least word and minus one does not
fit. -/
def div (a b : Int) : Guarded Int :=
  if b = 0 then .error .zeroDivisor else fit (a.tdiv b)

/-- What is left of a word after such a division. -/
def rem (a b : Int) : Guarded Int := do
  let _ ← div a b
  return a.tmod b

/-- The least number that is not negative and differs from a word by a multiple of another one. -/
def modulo (a b : Int) : Guarded Int := do
  let _ ← div a b
  return a % b

variable {a b : Int}

theorem fit_ok (hle : -2 ^ 127 ≤ a) (hlt : a < 2 ^ 127) : fit a = .ok a := if_pos ⟨hle, hlt⟩

/-- A quotient by a positive word fits as the divided word does. -/
theorem div_ok (hle : -2 ^ 127 ≤ a) (hlt : a < 2 ^ 127) (hpos : 0 < b) :
    div a b = .ok (a.tdiv b) := by
  have habs := Int.natAbs_tdiv_le_natAbs a b
  rw [div, if_neg (by omega)]
  rcases Int.le_total 0 a with hnonneg | hnonpos
  · exact fit_ok (by omega) (by omega)
  · have hneg : a.tdiv b = -(-a).tdiv b := by rw [Int.neg_tdiv, Int.neg_neg]
    have := Int.tdiv_nonneg (Int.neg_nonneg_of_nonpos hnonpos) (Int.le_of_lt hpos)
    exact fit_ok (by omega) (by omega)

theorem rem_ok (hle : -2 ^ 127 ≤ a) (hlt : a < 2 ^ 127) (hpos : 0 < b) :
    rem a b = .ok (a.tmod b) := by
  simp [rem, div_ok hle hlt hpos]

theorem modulo_ok (hle : -2 ^ 127 ≤ a) (hlt : a < 2 ^ 127) (hpos : 0 < b) :
    modulo a b = .ok (a % b) := by
  simp [modulo, div_ok hle hlt hpos]

end Wide

/-! ## Draws -/

namespace Rng

/-- A number from `low` up to but not including `high`. -/
def drawFrom (low high : Nat) (rng : Rng) : Guarded (Nat × Rng) :=
  if low < high then
    let (offset, rng) := rng.below (high - low)
    .ok (low + offset, rng)
  else .error .emptyRange

/-- An integer from `low` to `high`, both included. -/
def drawBetween (low high : Int) (rng : Rng) : Guarded (Int × Rng) :=
  if low ≤ high then .ok (rng.between low high) else .error .emptyRange

theorem drawFrom_ok {low high : Nat} (h : low < high) (rng : Rng) :
    rng.drawFrom low high = .ok (low + (rng.below (high - low)).1, (rng.below (high - low)).2) :=
  if_pos h

theorem drawFrom_zero {high : Nat} (h : 0 < high) (rng : Rng) :
    rng.drawFrom 0 high = .ok (rng.below high) := by
  simp [drawFrom_ok h]

theorem drawBetween_ok {low high : Int} (h : low ≤ high) (rng : Rng) :
    rng.drawBetween low high = .ok (rng.between low high) := if_pos h

end Rng

/-! ## Lists -/

section

variable {α : Type}

/-- The entry of a list at a position. -/
def entryAt (values : Array α) (i : Nat) : Guarded α :=
  match values[i]? with
  | some v => .ok v
  | none => .error .outOfBounds

/-- A list with another entry at a position. -/
def replaceAt (values : Array α) (i : Nat) (v : α) : Guarded (Array α) :=
  if i < values.size then .ok (values.setIfInBounds i v) else .error .outOfBounds

theorem entryAt_ok {values : Array α} {i : Nat} (h : i < values.size) :
    entryAt values i = .ok values[i] := by
  simp [entryAt, h]

theorem replaceAt_ok {values : Array α} {i : Nat} (h : i < values.size) (v : α) :
    replaceAt values i v = .ok (values.setIfInBounds i v) := if_pos h

end

end SynthData
