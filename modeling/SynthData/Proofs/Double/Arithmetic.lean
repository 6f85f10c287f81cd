import SynthData.Proofs.Double.Packing

/-!
# Doubles as numbers

`Reads` says which number a double is.  The sum, the product and the quotient of two
doubles are the exact ones, rounded, unless that is too large (`Reads.add`, `Reads.mul`,
`Reads.div`); then they are infinite.  An infinite sum stays infinite, an infinite divisor makes a quotient
zero, and two infinities have none.
-/
namespace SynthData.Binary64

open Float.Model (UnpackedFloat Format)
open Float.Model.UnpackedFloat

/-- The double is a number. -/
def Reads (a : Float) (q : ℚ) : Prop := Denotes a.toModel.unpack q

/-- The double is the positive infinity. -/
def Infinite (a : Float) : Prop := a.toModel.unpack = .infinity .positive

variable {a b : Float} {x y : ℚ}

theorem Reads.unique (ha : Reads a x) (ha' : Reads a y) : x = y := Denotes.unique ha ha'

theorem Reads.not_infinite (ha : Reads a x) : ¬ Infinite a := by
  intro hinfinite
  have hdenotes : Denotes a.toModel.unpack x := ha
  rw [show a.toModel.unpack = .infinity .positive from hinfinite] at hdenotes
  cases hdenotes

theorem Reads.isNaN (ha : Reads a x) : a.isNaN = false := by
  have hdenotes : Denotes a.toModel.unpack x := ha
  show a.toModel.unpack.isNaN = false
  cases h : a.toModel.unpack with
  | notANumber =>
    rw [h] at hdenotes
    cases hdenotes
  | _ => rfl

/-! ## Numbers that are too large -/

/-- The least number that is too large for a double. -/
def limit : ℚ := 2 ^ (1024 : ℤ)

theorem mul_zpow_lt_limit {m : ℕ} {e : ℤ} (hm : m < 2 ^ 53) (he : e ≤ 971) :
    (m : ℚ) * 2 ^ e < limit := by
  rw [limit]
  calc (m : ℚ) * 2 ^ e < 2 ^ (53 : ℤ) * 2 ^ e :=
        mul_lt_mul_of_pos_right (by exact_mod_cast hm) (two_zpow_pos e)
    _ = 2 ^ (53 + e) := (zpow_add₀ (by norm_num) _ _).symm
    _ ≤ 2 ^ (1024 : ℤ) := zpow_le_zpow_right₀ (by norm_num) (by omega)

theorem Gives.pack {u : UnpackedFloat} (h : Gives u x) (hx : |x| < limit) :
    Denotes (Float.Model.pack u).unpack x := by
  obtain ⟨hcanonical, hdenotes⟩ := h
  suffices hfits : Fits u by rwa [unpack_pack hcanonical hfits]
  cases hdenotes with
  | zero s => trivial
  | finite s m e pos =>
    obtain ⟨-, he, hbits⟩ := hcanonical
    -- a mantissa of 53 bits with a larger exponent is past the limit
    by_contra hlarge
    have hlt : 971 < e := not_le.mp hlarge
    have hm : (2 : ℚ) ^ (52 : ℤ) ≤ m := by exact_mod_cast hbits.resolve_right (by omega)
    refine absurd hx (not_lt.mpr ?_)
    rw [abs_signed, limit]
    calc (2 : ℚ) ^ (1024 : ℤ) ≤ 2 ^ (52 + e) := zpow_le_zpow_right₀ (by norm_num) (by omega)
      _ = 2 ^ (52 : ℤ) * 2 ^ e := zpow_add₀ (by norm_num) _ _
      _ ≤ m * 2 ^ e := mul_le_mul_of_nonneg_right hm (two_zpow_pos e).le

theorem Gives.pack_infinite {u : UnpackedFloat} (h : Gives u x) (hx : limit ≤ x) :
    (Float.Model.pack u).unpack = .infinity .positive := by
  obtain ⟨hcanonical, hdenotes⟩ := h
  have hlimit : (0 : ℚ) < limit := two_zpow_pos 1024
  cases hdenotes with
  | zero s => exact absurd hx (not_le.mpr hlimit)
  | finite s m e pos =>
    cases s with
    | negative => exact absurd (hlimit.trans_le hx) (not_lt.mpr (signed_neg pos e).le)
    | positive =>
      refine unpack_pack_of_large ?_
      by_contra hsmall
      exact absurd hx (not_le.mpr (mul_zpow_lt_limit hcanonical.1 (not_lt.mp hsmall)))

/-! ## The numbers that doubles are -/

theorem Reads.gives (ha : Reads a x) : Gives a.toModel.unpack x := ⟨(unpack_canonical _).1, ha⟩

theorem Reads.rounded (ha : Reads a x) : rounded x = x := ha.gives.hasBits.rounded

theorem Reads.lt_limit (ha : Reads a x) : x < limit := by
  by_contra hlarge
  have hfits := (unpack_canonical a.toModel).2
  have hinfinite := ha.gives.pack_infinite (not_lt.mp hlarge)
  rw [unpack_pack (unpack_canonical _).1 hfits] at hinfinite
  exact ha.not_infinite hinfinite

theorem Reads.abs_lt_limit (ha : Reads a x) : |x| < limit := by
  obtain ⟨hcanonical, hfits⟩ := unpack_canonical a.toModel
  have hdenotes : Denotes a.toModel.unpack x := ha
  generalize a.toModel.unpack = u at hcanonical hfits hdenotes
  cases hdenotes with
  | zero s =>
    rw [abs_zero]
    exact two_zpow_pos 1024
  | finite s m e pos =>
    rw [abs_signed]
    exact mul_zpow_lt_limit hcanonical.1 hfits

theorem reads_zero : Reads 0 0 := .zero .positive

/-- A positive double is read off its parts. -/
theorem reads_of_unpack {m : ℕ} {e : ℤ} {pos : 0 < m}
    (h : a.toModel.unpack = .finite .positive m e pos) (hx : m * 2 ^ e = x) : Reads a x := by
  rw [Reads, h, ← hx]
  exact .finite .positive m e pos

theorem reads_one : Reads 1 1 :=
  reads_of_unpack (m := 2 ^ 52) (e := -52) rfl (by norm_num)

theorem isFinite_iff : a.isFinite = true ↔ ∃ x, Reads a x := by
  show a.toModel.unpack.isFinite = true ↔ ∃ x, Denotes a.toModel.unpack x
  rcases a.toModel.unpack with s | _ | s | ⟨s, m, e, pos⟩
  · exact ⟨nofun, nofun⟩
  · exact ⟨nofun, nofun⟩
  · exact ⟨fun _ => ⟨_, .zero s⟩, fun _ => rfl⟩
  · exact ⟨fun _ => ⟨_, .finite s m e pos⟩, fun _ => rfl⟩

/-! ## Sums, differences, products and quotients -/

theorem Reads.add (ha : Reads a x) (hb : Reads b y) (h : |Binary64.rounded (x + y)| < limit) :
    Reads (a + b) (Binary64.rounded (x + y)) :=
  (add_gives ha.gives hb.gives).pack h

theorem Reads.sub (ha : Reads a x) (hb : Reads b y) (h : |Binary64.rounded (x - y)| < limit) :
    Reads (a - b) (Binary64.rounded (x - y)) :=
  (sub_gives ha.gives hb.gives).pack h

theorem Reads.abs (ha : Reads a x) : Reads a.abs |x| :=
  (abs_gives ha.gives).pack (by rw [abs_abs]; exact ha.abs_lt_limit)

theorem Reads.infinite_add (ha : Reads a x) (hb : Reads b y)
    (h : limit ≤ Binary64.rounded (x + y)) : Infinite (a + b) :=
  (add_gives ha.gives hb.gives).pack_infinite h

theorem Reads.infinite_sub (ha : Reads a x) (hb : Reads b y)
    (h : limit ≤ Binary64.rounded (x - y)) : Infinite (a - b) :=
  (sub_gives ha.gives hb.gives).pack_infinite h

theorem Infinite.add (ha : Infinite a) (hb : Reads b y) : Infinite (a + b) := by
  have hsum := add_infinity hb
  rw [← show a.toModel.unpack = .infinity .positive from ha] at hsum
  show (Float.Model.pack (UnpackedFloat.add _ _ _)).unpack = _
  rw [hsum]
  exact (unpack_pack (unpack_canonical _).1 (unpack_canonical _).2).trans ha

theorem Reads.add_infinite (ha : Reads a x) (hb : Infinite b) : Infinite (a + b) := by
  have hsum := infinity_add ha
  rw [← show b.toModel.unpack = .infinity .positive from hb] at hsum
  show (Float.Model.pack (UnpackedFloat.add _ _ _)).unpack = _
  rw [hsum]
  exact (unpack_pack (unpack_canonical _).1 (unpack_canonical _).2).trans hb

theorem Reads.mul (ha : Reads a x) (hb : Reads b y) (h : |Binary64.rounded (x * y)| < limit) :
    Reads (a * b) (Binary64.rounded (x * y)) :=
  (mul_gives ha.gives hb.gives).pack h

theorem Reads.infinite_mul (ha : Reads a x) (hb : Reads b y)
    (h : limit ≤ Binary64.rounded (x * y)) : Infinite (a * b) :=
  (mul_gives ha.gives hb.gives).pack_infinite h

theorem Reads.div (ha : Reads a x) (hb : Reads b y) (hy : y ≠ 0)
    (h : |Binary64.rounded (x / y)| < limit) : Reads (a / b) (Binary64.rounded (x / y)) :=
  (div_gives ha.gives hb.gives hy).pack h

theorem Reads.infinite_div (ha : Reads a x) (hb : Reads b y) (hy : y ≠ 0)
    (h : limit ≤ Binary64.rounded (x / y)) : Infinite (a / b) :=
  (div_gives ha.gives hb.gives hy).pack_infinite h

theorem Infinite.div (ha : Infinite a) (hb : Reads b y) (hy : 0 < y) : Infinite (a / b) := by
  have hquotient := infinity_div hb hy
  rw [← show a.toModel.unpack = .infinity .positive from ha] at hquotient
  show (Float.Model.pack (UnpackedFloat.div _ _ _)).unpack = _
  rw [hquotient]
  exact (unpack_pack (unpack_canonical _).1 (unpack_canonical _).2).trans ha

theorem Reads.div_infinite (ha : Reads a x) (hb : Infinite b) : Reads (a / b) 0 := by
  obtain ⟨s, hs⟩ := div_infinity ha
  rw [← show b.toModel.unpack = .infinity .positive from hb] at hs
  show Denotes (Float.Model.pack (UnpackedFloat.div _ _ _)).unpack 0
  rw [hs, unpack_pack (u := .zero s) trivial trivial]
  exact .zero s

theorem Infinite.div_infinite (ha : Infinite a) (hb : Infinite b) : (a / b).isNaN = true := by
  show (Float.Model.pack (UnpackedFloat.div _ _ _)).unpack.isNaN = true
  rw [show a.toModel.unpack = .infinity .positive from ha,
    show b.toModel.unpack = .infinity .positive from hb]
  rfl

/-! ## Comparison -/

theorem Reads.lt_iff (ha : Reads a x) (hb : Reads b y) : a < b ↔ x < y := by
  show decide ((a.toModel.unpack.compare b.toModel.unpack == some .lt) = true) = true ↔ x < y
  rw [decide_eq_true_iff, compare_gives ha.gives hb.gives, ← cmp_eq_lt_iff x y]
  cases cmp x y <;> decide

theorem Reads.le_iff (ha : Reads a x) (hb : Reads b y) : a ≤ b ↔ x ≤ y := by
  show decide ((a.toModel.unpack.compare b.toModel.unpack).any (·.isLE) = true) = true ↔ x ≤ y
  rw [decide_eq_true_iff, compare_gives ha.gives hb.gives, ← not_lt, ← cmp_eq_gt_iff x y]
  cases cmp x y <;> decide

theorem Reads.beq_iff (ha : Reads a x) (hb : Reads b y) : (a == b) = true ↔ x = y := by
  show (a.toModel.unpack.compare b.toModel.unpack == some .eq) = true ↔ x = y
  rw [compare_gives ha.gives hb.gives, ← cmp_eq_eq_iff x y]
  cases cmp x y <;> decide

theorem Infinite.beq (ha : Infinite a) (hb : Reads b y) : (a == b) = false := by
  have hdenotes : Denotes b.toModel.unpack y := hb
  show (a.toModel.unpack.compare b.toModel.unpack == some .eq) = false
  rw [show a.toModel.unpack = .infinity .positive from ha]
  generalize b.toModel.unpack = u at hdenotes
  cases hdenotes <;> rfl

/-- Nothing is above the infinity. -/
theorem Infinite.not_lt (ha : Infinite a) (hb : Reads b y) : ¬ a < b := by
  have hdenotes : Denotes b.toModel.unpack y := hb
  show ¬ decide ((a.toModel.unpack.compare b.toModel.unpack == some .lt) = true) = true
  rw [show a.toModel.unpack = .infinity .positive from ha]
  generalize b.toModel.unpack = u at hdenotes
  cases hdenotes <;> exact Bool.false_ne_true

theorem Reads.le_infinite (ha : Reads a x) (hb : Infinite b) : a ≤ b := by
  have hdenotes : Denotes a.toModel.unpack x := ha
  show decide ((a.toModel.unpack.compare b.toModel.unpack).any (·.isLE) = true) = true
  rw [show b.toModel.unpack = .infinity .positive from hb]
  generalize a.toModel.unpack = u at hdenotes
  cases hdenotes <;> rfl

/-- What lies between two numbers is a number. -/
theorem reads_of_between {c : Float} (ha : Reads a x) (hc : Reads c y) (hle : a ≤ b)
    (hlt : b < c) : ∃ q, Reads b q := by
  have hle' : decide ((a.toModel.unpack.compare b.toModel.unpack).any (·.isLE) = true) = true := hle
  have hlt' : decide ((b.toModel.unpack.compare c.toModel.unpack == some .lt) = true) = true := hlt
  have hdenotes : Denotes a.toModel.unpack x := ha
  have hdenotes' : Denotes c.toModel.unpack y := hc
  show ∃ q, Denotes b.toModel.unpack q
  generalize a.toModel.unpack = u at hle' hdenotes
  generalize c.toModel.unpack = u' at hlt' hdenotes'
  generalize b.toModel.unpack = v at hle' hlt'
  cases v with
  | notANumber => cases hdenotes' <;> cases hlt'
  | infinity s =>
    cases s with
    | negative => cases hdenotes <;> cases hle'
    | positive => cases hdenotes' <;> cases hlt'
  | zero s => exact ⟨_, .zero s⟩
  | finite s m e pos => exact ⟨_, .finite s m e pos⟩

/-- A double that is not a number is not below anything. -/
theorem not_lt_of_isNaN (ha : a.isNaN = true) : ¬ a < b := by
  show ¬ decide ((a.toModel.unpack.compare b.toModel.unpack == some .lt) = true) = true
  have hnan : a.toModel.unpack = .notANumber := by
    have hisNaN : a.toModel.unpack.isNaN = true := ha
    generalize a.toModel.unpack = u at hisNaN ⊢
    cases u with
    | notANumber => rfl
    | _ => cases hisNaN
  rw [hnan]
  generalize b.toModel.unpack = u
  cases u <;> exact Bool.false_ne_true

end SynthData.Binary64
