import SynthData.Proofs.Double.Unpacked

/-!
# Doubles and their parts

The parts of a double are canonical (`unpack_canonical`), and parts that are put
together come back if their exponent is not too large (`unpack_pack`).  If it is, the
double is infinite (`unpack_pack_of_large`).
-/
namespace SynthData.Binary64

open Float.Model (UnpackedFloat Format)
open Float.Model.UnpackedFloat

/-- The exponent is not too large for a double. -/
def Fits : UnpackedFloat → Prop
  | .finite _ _ e _ => e ≤ 971
  | _ => True

theorem toNat_append_one (v : BitVec 52) : (1#1 ++ v).toNat = 2 ^ 52 + v.toNat := by
  rw [BitVec.toNat_append, Nat.shiftLeft_eq]
  exact (Nat.two_pow_add_eq_or_of_lt v.isLt 1).symm

/-- **The parts of a double are canonical.** -/
theorem unpack_canonical (f : Float.Model) : Canonical f.unpack ∧ Fits f.unpack := by
  have hbias : (Format.binary64.exponentBias : ℤ) = 1023 := rfl
  have hfraction := (@unpackMantissa Format.binary64 f.toBits.toBitVec).isLt
  have hexponent := (@unpackExponent Format.binary64 f.toBits.toBitVec).isLt
  unfold Float.Model.unpack UnpackedFloat.unpack
  dsimp only at hfraction hexponent ⊢
  -- the largest exponent has no mantissa, and the least one has mantissas of fewer bits
  split
  · split
    · exact ⟨trivial, trivial⟩
    · exact ⟨trivial, trivial⟩
  · next hmax =>
    split
    · next hmin =>
      split
      · exact ⟨trivial, trivial⟩
      · simp only [Canonical, Fits, hmin, hbias]
        norm_num
        omega
    · next hmin =>
      have hlarge : (@unpackExponent Format.binary64 f.toBits.toBitVec).toNat ≠ 2047 :=
        fun h => hmax (BitVec.eq_of_toNat_eq h)
      have hsmall : (@unpackExponent Format.binary64 f.toBits.toBitVec).toNat ≠ 0 :=
        fun h => hmin (BitVec.eq_of_toNat_eq h)
      dsimp only at hlarge hsmall
      simp only [Canonical, Fits, toNat_append_one, hbias]
      omega

theorem unpack_pack_eq (u : UnpackedFloat) : (Float.Model.pack u).unpack =
    UnpackedFloat.unpack Format.binary64 (UnpackedFloat.pack Format.binary64 u) := rfl

/-- Parts with too large an exponent are put together to an infinity. -/
theorem unpack_pack_of_large {s : Sign} {m : ℕ} {e : ℤ} {pos : 0 < m} (h : 971 < e) :
    (Float.Model.pack (.finite s m e pos)).unpack = .infinity s := by
  have hbias : (Format.binary64.exponentBias : ℤ) = 1023 := rfl
  have hlarge : 2 ^ 11 ≤ (e + Format.binary64.exponentBias + (52 : ℕ)).toNat + 1 := by
    rw [hbias]
    omega
  rw [unpack_pack_eq, UnpackedFloat.pack]
  dsimp only
  rw [if_pos hlarge]
  cases s <;> rfl

/-- A mantissa of 53 bits is kept without the first one. -/
theorem unpack_normal (s : Sign) {m biased : ℕ} (hm : 2 ^ 52 ≤ m) (hm' : m < 2 ^ 53)
    (hbiased : 0 < biased) (hbiased' : biased < 2047) :
    UnpackedFloat.unpack Format.binary64
        (packComponents Format.binary64 s (BitVec.ofNat 11 biased) (BitVec.ofNat 52 m)) =
      .finite s m (biased - 1075) (by omega) := by
  have hbias : (Format.binary64.exponentBias : ℤ) = 1023 := rfl
  have hfraction : (1#1 ++ BitVec.ofNat 52 m).toNat = m := by
    rw [toNat_append_one, BitVec.toNat_ofNat]
    omega
  have hexponent : (BitVec.ofNat 11 biased).toNat = biased := by
    rw [BitVec.toNat_ofNat]
    omega
  have hmin : BitVec.ofNat 11 biased ≠ 0#11 := fun h => by
    rw [h, BitVec.toNat_ofNat] at hexponent
    omega
  have hmax : BitVec.ofNat 11 biased ≠ -1#11 := fun h => by
    have hones := congrArg BitVec.toNat h
    rw [hexponent, show (-1#11).toNat = 2047 from rfl] at hones
    omega
  simp only [UnpackedFloat.unpack, unpackMantissa_packComponents, unpackExponent_packComponents,
    unpackSign_packComponents, Sign.ofBitVec_toBitVec]
  rw [if_neg hmax, if_neg hmin]
  congr 1
  rw [hexponent, hbias]
  omega

/-- A mantissa of fewer bits goes with the least exponent. -/
theorem unpack_subnormal (s : Sign) {m : ℕ} (hm : 0 < m) (hm' : m < 2 ^ 52) :
    UnpackedFloat.unpack Format.binary64
        (packComponents Format.binary64 s 0#11 (BitVec.ofNat 52 m)) = .finite s m (-1074) hm := by
  have hfraction : (BitVec.ofNat 52 m).toNat = m := by
    rw [BitVec.toNat_ofNat]
    omega
  have hne : BitVec.ofNat 52 m ≠ 0#52 := fun h => by
    rw [h, BitVec.toNat_ofNat] at hfraction
    omega
  simp only [UnpackedFloat.unpack, unpackMantissa_packComponents, unpackExponent_packComponents,
    unpackSign_packComponents, Sign.ofBitVec_toBitVec]
  rw [if_neg (by decide), if_pos trivial, dif_neg hne]
  congr 1

/-- **Parts that are put together come back.** -/
theorem unpack_pack {u : UnpackedFloat} (hcanonical : Canonical u) (hfits : Fits u) :
    (Float.Model.pack u).unpack = u := by
  rw [unpack_pack_eq]
  cases u with
  | infinity s => cases s <;> rfl
  | notANumber => rfl
  | zero s => cases s <;> rfl
  | finite s m e pos =>
    obtain ⟨hm, he, hbits⟩ := hcanonical
    have hmax : e ≤ 971 := hfits
    obtain ⟨biased, hbiased⟩ := Int.eq_ofNat_of_zero_le (show 0 ≤ e + 1075 by omega)
    have hsum : (e + Format.binary64.exponentBias + (52 : ℕ)).toNat = biased := by
      rw [show (Format.binary64.exponentBias : ℤ) = 1023 from rfl]
      omega
    rw [UnpackedFloat.pack]
    dsimp only
    rw [hsum, if_neg (by omega)]
    split
    · next hlog =>
      have hle := Nat.log2_self_le pos.ne'
      rw [show m.log2 = 52 from Nat.succ.inj hlog] at hle
      rw [unpack_normal s hle hm (by omega) (by omega)]
      congr 1
      omega
    · next hlog =>
      have hlt : m < 2 ^ 52 := by
        refine (Nat.log2_lt pos.ne').mp ?_
        have hlog' : m.log2 + 1 ≠ 53 := hlog
        have hlt := (Nat.log2_lt pos.ne').mpr hm
        omega
      rw [unpack_subnormal s pos hlt, hbits.resolve_left (by omega)]

end SynthData.Binary64
