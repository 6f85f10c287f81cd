import Mathlib.Algebra.Order.Floor.Ring
import Mathlib.Data.Int.Log
import Mathlib.Data.Rat.Floor
import Mathlib.Tactic.Linarith
import Mathlib.Tactic.Ring

/-!
# Rounding to binary64

A rational number is rounded to the nearest multiple of a power of two, a tie
going to the even multiple.  The power is the one that leaves 53 bits, or the
least one there is (`step`).

Rounding keeps the order (`rounded_mono`) and changes no number that has a
mantissa of 53 bits already (`rounded_of_bits`).  How large a number may get is not
bounded here.
-/
namespace SynthData.Binary64

/-! ## Integers -/

/-- The nearest integer, or the even one of the two nearest. -/
def nearestEven (q : ℚ) : ℤ :=
  if Int.fract q < 1 / 2 then ⌊q⌋
  else if 1 / 2 < Int.fract q then ⌊q⌋ + 1
  else ⌊q⌋ + ⌊q⌋ % 2

variable {q r : ℚ}

theorem floor_le_nearestEven (q : ℚ) : ⌊q⌋ ≤ nearestEven q := by
  unfold nearestEven
  split
  · exact le_rfl
  · split <;> omega

theorem nearestEven_le (q : ℚ) : nearestEven q ≤ ⌊q⌋ + 1 := by
  unfold nearestEven
  split
  · omega
  · split <;> omega

theorem nearestEven_intCast (n : ℤ) : nearestEven n = n := by
  rw [nearestEven, Int.fract_intCast, Int.floor_intCast, if_pos (by norm_num)]

theorem nearestEven_mono (h : q ≤ r) : nearestEven q ≤ nearestEven r := by
  have hfloor := Int.floor_mono h
  rcases hfloor.eq_or_lt with heq | hlt
  · -- on one side of an integer only the fractions count
    have hfract : Int.fract q ≤ Int.fract r := by
      rw [Int.fract, Int.fract, heq]
      linarith
    unfold nearestEven
    rw [heq]
    split_ifs
    all_goals first | omega | linarith
  · have hle := nearestEven_le q
    have hge := floor_le_nearestEven r
    omega

theorem nearestEven_neg (q : ℚ) : nearestEven (-q) = -nearestEven q := by
  rcases eq_or_ne (Int.fract q) 0 with hzero | hne
  · obtain ⟨n, rfl⟩ : ∃ n : ℤ, q = n := ⟨⌊q⌋, by rw [← Int.floor_add_fract q, hzero]; simp⟩
    rw [← Int.cast_neg, nearestEven_intCast, nearestEven_intCast]
  · have hfract := Int.fract_neg hne
    have hfloor : ⌊-q⌋ = -⌊q⌋ - 1 := by
      have hq := Int.floor_add_fract q
      have hnq := Int.floor_add_fract (-q)
      have hcast : ((⌊-q⌋ : ℤ) : ℚ) = ((-⌊q⌋ - 1 : ℤ) : ℚ) := by
        push_cast
        linarith
      exact_mod_cast hcast
    unfold nearestEven
    rw [hfract, hfloor]
    split_ifs
    all_goals first | omega | linarith

/-! ## Steps -/

/-- The exponent of the distance between numbers of 53 bits near a number. -/
def step (q : ℚ) : ℤ := max (Int.log 2 |q| - 52) (-1074)

/-- The nearest number of 53 bits. -/
def rounded (q : ℚ) : ℚ := nearestEven (q / 2 ^ step q) * 2 ^ step q

theorem le_step (q : ℚ) : -1074 ≤ step q := le_max_right _ _

theorem step_neg (q : ℚ) : step (-q) = step q := by rw [step, step, abs_neg]

theorem rounded_neg (q : ℚ) : rounded (-q) = -rounded q := by
  rw [rounded, step_neg, neg_div, nearestEven_neg, rounded]
  push_cast
  ring

theorem rounded_zero : rounded 0 = 0 := by
  rw [rounded, zero_div, show (0 : ℚ) = ((0 : ℤ) : ℚ) from rfl, nearestEven_intCast]
  simp

theorem two_zpow_pos (e : ℤ) : (0 : ℚ) < 2 ^ e := zpow_pos (by norm_num) e

theorem rounded_nonneg (h : 0 ≤ q) : 0 ≤ rounded q := by
  have hzero : (0 : ℤ) ≤ nearestEven (q / 2 ^ step q) :=
    (Int.floor_nonneg.mpr (div_nonneg h (two_zpow_pos _).le)).trans (floor_le_nearestEven _)
  exact mul_nonneg (by exact_mod_cast hzero) (two_zpow_pos _).le

/-- The power of two just above a number that is rounded in steps. -/
theorem lt_of_step (h : 0 < q) : q < 2 ^ (step q + 53) := by
  have hlog := Int.lt_zpow_succ_log_self (b := 2) (by norm_num) q
  refine lt_of_lt_of_le (by simpa using hlog) (zpow_le_zpow_right₀ (by norm_num) ?_)
  rw [step, abs_of_pos h]
  omega

/-- Steps that are not the least ones leave 53 bits. -/
theorem le_of_step (h : 0 < q) (hstep : -1074 < step q) : 2 ^ (step q + 52) ≤ q := by
  have hlog := Int.zpow_log_le_self (b := 2) (by norm_num) h
  refine le_trans (zpow_le_zpow_right₀ (by norm_num) ?_) (by simpa using hlog)
  rw [step, abs_of_pos h] at hstep ⊢
  omega

theorem step_mono (h : 0 < q) (hle : q ≤ r) : step q ≤ step r := by
  rw [step, step, abs_of_pos h, abs_of_pos (h.trans_le hle)]
  have hlog := Int.log_mono_right (b := 2) h hle
  omega

/-- A mantissa that has been rounded has 53 bits, or is the power of two that follows. -/
theorem nearestEven_le_of_step (h : 0 < q) : nearestEven (q / 2 ^ step q) ≤ 2 ^ 53 := by
  have hle : q / 2 ^ step q ≤ ((2 ^ 53 : ℤ) : ℚ) := by
    rw [div_le_iff₀ (two_zpow_pos _)]
    have hlt := (lt_of_step h).le
    rw [add_comm, zpow_add₀ (by norm_num)] at hlt
    exact_mod_cast hlt
  simpa only [nearestEven_intCast] using nearestEven_mono hle

theorem le_nearestEven_of_step (h : 0 < q) (hstep : -1074 < step q) :
    2 ^ 52 ≤ nearestEven (q / 2 ^ step q) := by
  have hle : ((2 ^ 52 : ℤ) : ℚ) ≤ q / 2 ^ step q := by
    rw [le_div_iff₀ (two_zpow_pos _)]
    have hge := le_of_step h hstep
    rw [add_comm, zpow_add₀ (by norm_num)] at hge
    exact_mod_cast hge
  simpa only [nearestEven_intCast] using nearestEven_mono hle

theorem rounded_le_zpow (h : 0 < q) : rounded q ≤ 2 ^ (step q + 53) := by
  have hnearest := nearestEven_le_of_step h
  rw [rounded, add_comm, zpow_add₀ (by norm_num)]
  refine mul_le_mul_of_nonneg_right ?_ (two_zpow_pos _).le
  exact_mod_cast hnearest

theorem zpow_le_rounded (h : 0 < q) (hstep : -1074 < step q) : 2 ^ (step q + 52) ≤ rounded q := by
  have hnearest := le_nearestEven_of_step h hstep
  rw [rounded, add_comm, zpow_add₀ (by norm_num)]
  refine mul_le_mul_of_nonneg_right ?_ (two_zpow_pos _).le
  exact_mod_cast hnearest

theorem rounded_mono_of_pos (h : 0 < q) (hle : q ≤ r) : rounded q ≤ rounded r := by
  rcases (step_mono h hle).eq_or_lt with heq | hlt
  · rw [rounded, rounded, heq]
    refine mul_le_mul_of_nonneg_right ?_ (two_zpow_pos _).le
    have hnearest : nearestEven (q / 2 ^ step r) ≤ nearestEven (r / 2 ^ step r) :=
      nearestEven_mono (div_le_div_of_nonneg_right hle (two_zpow_pos _).le)
    exact_mod_cast hnearest
  · -- between the two there is a power of two
    have hstep : -1074 < step r := lt_of_le_of_lt (le_step q) hlt
    calc rounded q ≤ 2 ^ (step q + 53) := rounded_le_zpow h
      _ ≤ 2 ^ (step r + 52) := zpow_le_zpow_right₀ (by norm_num) (by omega)
      _ ≤ rounded r := zpow_le_rounded (h.trans_le hle) hstep

/-- **Rounding keeps the order.** -/
theorem rounded_mono : Monotone rounded := by
  intro q r hle
  -- negative numbers are rounded as their opposites are
  rcases lt_or_ge 0 q with hq | hq
  · exact rounded_mono_of_pos hq hle
  · rcases lt_or_ge r 0 with hr | hr
    · have hneg := rounded_mono_of_pos (neg_pos.mpr hr) (neg_le_neg hle)
      rw [rounded_neg, rounded_neg] at hneg
      linarith
    · have hnonneg := rounded_nonneg (neg_nonneg.mpr hq)
      rw [rounded_neg] at hnonneg
      have hnonneg' := rounded_nonneg hr
      linarith

/-! ## Numbers of 53 bits -/

/-- The numbers that have a mantissa of 53 bits, with an exponent that is not too small. -/
def HasBits (q : ℚ) : Prop :=
  ∃ (m : ℤ) (e : ℤ), |m| < 2 ^ 53 ∧ -1074 ≤ e ∧ q = m * 2 ^ e

/-- The steps at a number of 53 bits are no larger than the last of its bits. -/
theorem step_le {m e : ℤ} (hm : |m| < 2 ^ 53) (he : -1074 ≤ e) (hne : m ≠ 0) :
    step (m * 2 ^ e) ≤ e := by
  have habs : |((m : ℚ) * 2 ^ e)| < 2 ^ (53 + e) := by
    rw [abs_mul, abs_of_pos (two_zpow_pos e), zpow_add₀ (by norm_num)]
    refine mul_lt_mul_of_pos_right ?_ (two_zpow_pos e)
    exact_mod_cast hm
  have hpos : 0 < |((m : ℚ) * 2 ^ e)| := by
    rw [abs_pos]
    exact mul_ne_zero (Int.cast_ne_zero.mpr hne) (two_zpow_pos e).ne'
  have hlog := (Int.lt_zpow_iff_log_lt (b := 2) (by norm_num) hpos).mp (by simpa using habs)
  rw [step]
  omega

/-- **Rounding changes no number of 53 bits.** -/
theorem HasBits.rounded (h : HasBits q) : rounded q = q := by
  obtain ⟨m, e, hm, he, rfl⟩ := h
  rcases eq_or_ne m 0 with rfl | hne
  · simp [rounded_zero]
  · have hle := step_le hm he hne
    rw [Binary64.rounded]
    generalize step (m * 2 ^ e) = s at hle ⊢
    obtain ⟨k, hk⟩ := Int.eq_ofNat_of_zero_le (sub_nonneg.mpr hle)
    have hsplit : (2 : ℚ) ^ e = 2 ^ k * 2 ^ s := by
      rw [← zpow_natCast, ← zpow_add₀ (by norm_num)]
      congr 1
      omega
    have hquotient : (m : ℚ) * 2 ^ e / 2 ^ s = ((m * 2 ^ k : ℤ) : ℚ) := by
      rw [div_eq_iff (two_zpow_pos _).ne', hsplit]
      push_cast
      ring
    rw [hquotient, nearestEven_intCast, hsplit]
    push_cast
    ring

/-! ## How far a number is moved -/

theorem abs_nearestEven_sub_le (q : ℚ) : |nearestEven q - q| ≤ 1 / 2 := by
  have hsplit := Int.floor_add_fract q
  have hnonneg := Int.fract_nonneg q
  have hlt := Int.fract_lt_one q
  rw [abs_le]
  unfold nearestEven
  split_ifs with hless hmore
  · constructor <;> linarith
  · push_cast
    constructor <;> linarith
  · have hhalf : Int.fract q = 1 / 2 := le_antisymm (not_lt.mp hmore) (not_lt.mp hless)
    rcases Int.emod_two_eq_zero_or_one ⌊q⌋ with heven | hodd
    · rw [heven]
      push_cast
      constructor <;> linarith
    · rw [hodd]
      push_cast
      constructor <;> linarith

/-- Numbers below a power of two are rounded in steps of 53 bits less. -/
theorem step_le_of_abs_lt {t : ℤ} (ht : -1074 ≤ t) (hne : q ≠ 0) (h : |q| < 2 ^ (t + 53)) :
    step q ≤ t := by
  have hlog := (Int.lt_zpow_iff_log_lt (b := 2) (by norm_num) (abs_pos.mpr hne)).mp
    (by simpa using h)
  rw [step]
  omega

/-- **Rounding moves a number by half a step at most.** -/
theorem abs_rounded_sub_le {t : ℤ} (ht : -1074 ≤ t) (h : |q| ≤ 2 ^ (t + 53)) :
    |rounded q - q| ≤ 2 ^ t / 2 := by
  have hpos := two_zpow_pos t
  rcases eq_or_ne q 0 with rfl | hne
  · rw [rounded_zero, sub_zero, abs_zero]
    linarith
  rcases h.lt_or_eq with hlt | heq
  · have hstep := two_zpow_pos (step q)
    have hsplit : rounded q - q = (nearestEven (q / 2 ^ step q) - q / 2 ^ step q) * 2 ^ step q := by
      rw [rounded, sub_mul, div_mul_cancel₀ _ hstep.ne']
    rw [hsplit, abs_mul, abs_of_pos hstep]
    calc |(nearestEven (q / 2 ^ step q) : ℚ) - q / 2 ^ step q| * 2 ^ step q
        ≤ 1 / 2 * 2 ^ step q :=
          mul_le_mul_of_nonneg_right (abs_nearestEven_sub_le _) hstep.le
      _ ≤ 1 / 2 * 2 ^ t := by
          have := zpow_le_zpow_right₀ (a := (2 : ℚ)) (by norm_num)
            (step_le_of_abs_lt ht hne hlt)
          linarith
      _ = 2 ^ t / 2 := by ring
  · -- the power of two itself has 53 bits
    have hbits : HasBits (2 ^ (t + 53)) := ⟨1, t + 53, by norm_num, by omega, by simp⟩
    have hsame : rounded q = q := by
      rcases abs_eq (two_zpow_pos _).le |>.mp heq with rfl | rfl
      · exact hbits.rounded
      · rw [rounded_neg, hbits.rounded]
    rw [hsame, sub_self, abs_zero]
    linarith

end SynthData.Binary64
