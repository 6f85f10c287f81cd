import Mathlib.Algebra.Group.Nat.Defs
import SynthData.Proofs.Walk.Ordered
import SynthData.Walk.Ordered

/-!
# Reversed counters

The highest bit of a reversal is the lowest one of the number, and what is below
it is the reversal of the rest; so different counters have different reversals
(`reverseBits_inj`), and a walk by reversed counters visits no index twice.
-/
namespace SynthData.Walk

theorem reverseBits_lt (bits n : Nat) : reverseBits bits n < 2 ^ bits := by
  induction bits generalizing n with
  | zero => exact Nat.one_pos
  | succ bits ih =>
    have hrest := ih (n / 2)
    have hbit := Nat.mod_lt n (Nat.zero_lt_two)
    have hmul : n % 2 * 2 ^ bits ≤ 1 * 2 ^ bits := Nat.mul_le_mul_right _ (by omega)
    show n % 2 * 2 ^ bits + reverseBits bits (n / 2) < 2 ^ (bits + 1)
    rw [Nat.pow_succ]
    omega

/-- The highest bits of a reversal are the reversal of the lowest bits. -/
theorem reverseBits_div (bits places n : Nat) :
    reverseBits (bits + places) n / 2 ^ places = reverseBits bits n := by
  induction bits generalizing n with
  | zero =>
    rw [Nat.zero_add]
    exact Nat.div_eq_of_lt (reverseBits_lt places n)
  | succ bits ih =>
    have hrest : reverseBits (bits + 1 + places) n =
        2 ^ places * (n % 2 * 2 ^ bits) + reverseBits (bits + places) (n / 2) := by
      rw [Nat.add_right_comm, Nat.mul_comm, Nat.mul_assoc, ← Nat.pow_add]
      rfl
    rw [hrest, Nat.mul_add_div (Nat.two_pow_pos places), ih]
    rfl

/-- Different counters have different reversals. -/
theorem reverseBits_inj {bits m n : Nat} (hm : m < 2 ^ bits) (hn : n < 2 ^ bits)
    (h : reverseBits bits m = reverseBits bits n) : m = n := by
  induction bits generalizing m n with
  | zero => rw [Nat.lt_one_iff.mp hm, Nat.lt_one_iff.mp hn]
  | succ bits ih =>
    have hpos := Nat.two_pow_pos bits
    rw [Nat.pow_succ] at hm hn
    have hlow := reverseBits_lt bits (m / 2)
    have hlow' := reverseBits_lt bits (n / 2)
    have h : 2 ^ bits * (m % 2) + reverseBits bits (m / 2) =
        2 ^ bits * (n % 2) + reverseBits bits (n / 2) := by
      rw [Nat.mul_comm _ (m % 2), Nat.mul_comm _ (n % 2)]; exact h
    -- the highest bit of the reversal is the lowest one of the counter
    have hbit : m % 2 = n % 2 := by
      have := congrArg (· / 2 ^ bits) h
      simpa [Nat.mul_add_div hpos, Nat.div_eq_of_lt hlow, Nat.div_eq_of_lt hlow'] using this
    have hrest : m / 2 = n / 2 :=
      ih (by omega) (by omega) (by rw [hbit] at h; omega)
    omega

namespace BitReverse

/-- All counters that are left have the walk's bits. -/
structure Visits (n : Nat) (w : BitReverse) : Prop where
  count_eq : w.count = n
  left_le : w.left ≤ 2 ^ w.bits

/-- The reversals of the counters that are left. -/
def Pending (w : BitReverse) (i : Nat) : Prop :=
  ∃ k, 2 ^ w.bits ≤ k + w.left ∧ k < 2 ^ w.bits ∧ reverseBits w.bits k = i

/-- What is looked at: counters without a visit, then one that is visited. -/
theorem seek_spec (count : Nat) {bits left : Nat} (hleft : left ≤ 2 ^ bits) :
    (seek count bits left).2 ≤ left ∧
      ∀ i ∈ (seek count bits left).1, i < count ∧ (seek count bits left).2 < left ∧
        i = reverseBits bits (2 ^ bits - ((seek count bits left).2 + 1)) := by
  induction left with
  | zero => exact ⟨Nat.le_refl 0, nofun⟩
  | succ left ih =>
    unfold seek
    dsimp only
    split
    · rename_i hlt
      refine ⟨Nat.le_succ left, fun i hi => ?_⟩
      obtain rfl := Option.some.inj hi
      exact ⟨hlt, Nat.lt_succ_self left, rfl⟩
    · obtain ⟨hle, hsome⟩ := ih (by omega)
      refine ⟨by omega, fun i hi => ?_⟩
      obtain ⟨hlt, hless, rfl⟩ := hsome i hi
      exact ⟨hlt, by omega, rfl⟩

theorem visits_rewind (w : BitReverse) (spec : Spec) :
    (w.rewind spec).Visits spec.sampleCount :=
  ⟨rfl, Nat.le_refl _⟩

theorem next_visits {n : Nat} {w : BitReverse} (hw : w.Visits n) :
    w.next.2.Visits n ∧ ∀ i ∈ w.next.1, i < n := by
  obtain ⟨hle, hsome⟩ := seek_spec w.count hw.left_le
  exact ⟨⟨hw.count_eq, Nat.le_trans hle hw.left_le⟩,
    fun i hi => hw.count_eq ▸ (hsome i hi).1⟩

theorem next_spends {n : Nat} {w : BitReverse} (hw : w.Visits n) :
    Spends Pending w w.next.1 w.next.2 := by
  obtain ⟨hle, hsome⟩ := seek_spec w.count hw.left_le
  have hleft := hw.left_le
  have next_left : w.next.2.left = (seek w.count w.bits w.left).2 := rfl
  refine ⟨fun i hi => ?_, fun i hi => ?_⟩
  · obtain ⟨-, hless, rfl⟩ := hsome i hi
    refine ⟨⟨_, by omega, by omega, rfl⟩, ?_⟩
    rintro ⟨k, hk, hlt, heq⟩
    rw [next_left] at hk
    have := reverseBits_inj hlt (by show _ < 2 ^ w.bits; omega) heq
    change 2 ^ w.bits ≤ _ at hk
    omega
  · obtain ⟨k, hk, hlt, heq⟩ := hi
    rw [next_left] at hk
    exact ⟨k, by change 2 ^ w.bits ≤ _ at hk; omega, hlt, heq⟩

end BitReverse
end SynthData.Walk
