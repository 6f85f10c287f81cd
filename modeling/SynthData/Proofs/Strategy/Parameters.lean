import SynthData.Proofs.Double.Literals
import SynthData.Proofs.Grid.Floor
import SynthData.Proofs.Strategy.Grammar
import SynthData.Strategy.Named

/-!
# Parameters that are whole numbers

The number in a call of `step`, `shuffle` or `head` is read as a double, and the double has to be a
whole number of 64 bits (`integer_of_reads`).  This is checked after rounding, so a number of more
than 53 bits may become another one, and the least number that is too large is not refused
(`call_exact_iff`).  Smaller numbers are kept (`call_exact`).
-/
namespace SynthData

open Binary64 (Reads rounded limit)

/-! ## Whole numbers -/

namespace Strategy

theorem reads_integerLimit : Reads integerLimit (2 ^ 63) :=
  Binary64.reads_of_unpack (m := 2 ^ 52) (e := 11) rfl (by norm_num)

variable {x : Float} {n : ℤ}

theorem integer_of_not_finite (h : x.isFinite = false) : integer x = .error (.notInteger x) := by
  simp [integer, h]

/-- The size of a whole number is kept by its word. -/
theorem toUInt64_of_reads (h : Reads x n) (hle : |n| ≤ 2 ^ 63) :
    x.abs.toUInt64.toNat = n.natAbs ∧ (x.abs.toUInt64.toFloat == x.abs) = true := by
  have hsize : |(n : ℚ)| = n.natAbs := by
    rw [← Int.cast_abs, Int.abs_eq_natAbs, Int.cast_natCast]
  have habs := h.abs
  rw [hsize] at habs
  rw [Int.abs_eq_natAbs] at hle
  have hlt : (n.natAbs : ℚ) < 2 ^ 64 := by
    exact_mod_cast show n.natAbs < 2 ^ 64 by omega
  have hword : x.abs.toUInt64.toNat = n.natAbs := by
    rw [habs.toUInt64 n.natAbs.cast_nonneg hlt, Nat.floor_natCast]
  have hback := reads_word x.abs.toUInt64
  rw [hword, habs.rounded] at hback
  exact ⟨hword, (hback.beq_iff habs).mpr rfl⟩

/-- **A whole number is a parameter unless it is too large**, and is kept but for the least one
above the 64 bits. -/
theorem integer_of_reads (h : Reads x n) : integer x =
    if 2 ^ 63 < |n| then .error (.notInteger x) else .ok (.ofIntClamp n) := by
  have hfinite : x.isFinite = true := Binary64.isFinite_iff.mpr ⟨n, h⟩
  have hlimit : integerLimit < x.abs ↔ 2 ^ 63 < |n| := by
    rw [reads_integerLimit.lt_iff h.abs]
    exact_mod_cast Iff.rfl
  by_cases hlarge : 2 ^ 63 < |n|
  · have hlimit' := hlimit.mpr hlarge
    rw [if_pos hlarge]
    simp [integer, hlimit']
  · have hlimit' := hlimit.not.mpr hlarge
    rw [if_neg hlarge]
    obtain ⟨hsize, hwhole⟩ := toUInt64_of_reads h (not_lt.mp hlarge)
    have hneg : x < 0 ↔ n < 0 := by
      rw [h.lt_iff Binary64.reads_zero]
      exact_mod_cast Iff.rfl
    have hvalue : (if x < 0 then -(x.abs.toUInt64.toNat : ℤ) else x.abs.toUInt64.toNat) = n := by
      rw [hsize]
      simp only [hneg]
      split <;> omega
    simp [integer, hfinite, hlimit', hwhole, bne, hvalue]

end Strategy

theorem toInt_ofIntClamp {z : ℤ} (h : |z| ≤ 2 ^ 63) :
    (Int64.ofIntClamp z).toInt = min z (2 ^ 63 - 1) := by
  obtain ⟨hlow, hhigh⟩ := abs_le.mp h
  rcases hhigh.lt_or_eq with hlt | rfl
  · have hmax : z ≤ 2 ^ 63 - 1 := by omega
    rw [Int64.toInt_ofIntClamp hlow hmax, min_eq_left hmax]
  · rfl

namespace Literal

variable (t : Literal)

/-- **The number is rounded, and refused if it is too large then.** -/
theorem integer_double {z : ℤ} (hz : rounded t.toInt = z) :
    Strategy.integer t.double.toFloat = if 2 ^ 63 < |z| then .error (.notInteger t.double.toFloat)
      else .ok (.ofIntClamp z) := by
  rcases lt_or_ge |rounded t.toInt| limit with hlt | hge
  · have hreads := t.reads_double hlt
    rw [hz] at hreads
    exact Strategy.integer_of_reads hreads
  · have hlarge : 2 ^ 63 < |z| := by
      rw [hz] at hge
      have hlimit : (2 : ℚ) ^ (63 : ℤ) < limit := zpow_lt_zpow_right₀ (by norm_num) (by norm_num)
      exact_mod_cast hlimit.trans_le hge
    rw [Strategy.integer_of_not_finite (t.isFinite_double hge), if_pos hlarge]

theorem not_blank : ∀ c ∈ t.chars, Text.isBlank c = false := by
  intro c hc
  simpa using t.of_mem_chars (p := fun c => !Text.isBlank c) (by decide) hc

theorem not_mem_comma : ',' ∉ t.chars := by
  intro hc
  have hne := t.of_mem_chars (p := (· != ',')) (by decide) hc
  simp at hne

/-- The integer of digits without a sign. -/
def unsigned (digits : List Char) (hne : digits ≠ []) (h : digits.all Text.isDigit) : Literal :=
  ⟨none, digits, nofun, hne, List.all_eq_true.mp h⟩

end Literal

/-! ## Calls -/

/-- The strategies with one parameter, which is a whole number. -/
inductive Parameterized where
  | step
  | shuffle
  | head

namespace Parameterized

def name : Parameterized → String
  | step => "step"
  | shuffle => "shuffle"
  | head => "head"

/-- The call with a number. -/
def call (p : Parameterized) (t : Literal) : String :=
  String.ofList (p.name.toList ++ '(' :: (t.chars ++ [')']))

/-- The parameter of a strategy that such a call stands for. -/
def parameter? : Parameterized → Strategy → Option ℤ
  | step, .step delta none none => some delta.toInt
  | shuffle, .shuffle stride _ => some stride.toNat
  | head, .head size _ => some size.toNat
  | _, _ => none

/-- The strategy for a number that has been read. -/
def ofNumber : Parameterized → Float → Except Fault Strategy
  | step, x => do return .step (← Strategy.integer x) none none
  | shuffle, x => do Strategy.ofStride (← Strategy.count x)
  | head, x => do Strategy.ofSize (← Strategy.count x)

/-- The parameter is the number that was written, unless the parameters are refused. -/
def Exact (p : Parameterized) (n : ℤ) : Except Fault Strategy → Prop
  | .ok strategy => p.parameter? strategy = some n
  | .error fault => fault.kind = .config

variable (p : Parameterized) (t : Literal)

theorem toList_call : (p.call t).toList = p.name.toList ++ '(' :: (t.chars ++ [')']) :=
  String.toList_ofList

theorem name_not_blank : ∀ c ∈ p.name.toList, Text.isBlank c = false := by
  cases p <;> simp [name, Text.isBlank]

theorem call_not_blank : ∀ c ∈ (p.call t).toList, Text.isBlank c = false := by
  simp only [toList_call, List.forall_mem_append, List.forall_mem_cons]
  exact ⟨p.name_not_blank, by decide, t.not_blank, by decide, nofun⟩

theorem number?_chars : Call.number? t.chars = some t.double.toFloat := by
  rw [Call.number?, Text.trimChars_of_forall t.not_blank, t.readChars?_chars, Option.map_some]

/-- The call as it is written. -/
def written : Call.Written where
  before := []
  name := p.name.toList
  arguments := [t.chars]
  after := []
  before_blank := List.forall_mem_nil _
  after_blank := List.forall_mem_nil _
  not_open := by cases p <;> simp [name]
  ne_nil := List.cons_ne_nil _ _
  not_comma := by simpa using t.not_mem_comma

theorem text_written : (p.written t).text = p.call t := by
  simp [Call.Written.text, Call.Written.chars, Call.Written.inner, written, call]

theorem written_not_bare : ¬ (p.written t).Bare := by
  rintro ⟨blank, hblank, harguments⟩
  obtain rfl : t.chars = blank := (List.cons.inj harguments).1
  obtain ⟨c, hc⟩ := List.exists_mem_of_ne_nil t.digits t.ne_nil
  have hmem : c ∈ t.chars := List.mem_append_right _ hc
  exact absurd (hblank c hmem) (by rw [t.not_blank c hmem]; exact Bool.false_ne_true)

/-- **A call is read as its name and its number.** -/
theorem read_call : Call.read (p.call t) = .ok ⟨p.name, [t.double.toFloat]⟩ := by
  have hempty := (p.written t).isEmpty_inner.not.mpr (p.written_not_bare t)
  have harguments (call : String) :
      Call.readArguments call (p.written t).arguments = .ok [t.double.toFloat] := by
    rw [written, Call.readArguments_cons, number?_chars]
    rfl
  have hname : String.ofList (Text.trimChars (p.written t).name) = p.name := by
    rw [written, Text.trimChars_of_forall p.name_not_blank, String.ofList_toList]
  rw [← text_written, Call.Written.read_text, if_neg hempty, harguments, hname]
  rfl

theorem ofCall_call : Strategy.ofCall (p.call t) = p.ofNumber t.double.toFloat := by
  rw [Strategy.ofCall, read_call]
  cases p <;> rfl

/-- **A call stands for the strategy that is made with its number.** -/
theorem strategy_call (r : Registry) : r.strategy (p.call t) = p.ofNumber t.double.toFloat := by
  have hplain : Text.afterStart? "weight:".toList (p.call t).toList = none ∧
      Text.afterStart? "cdf:".toList (p.call t).toList = none ∧
      Text.afterStart? "feature:".toList (p.call t).toList = none := by
    cases p <;> simp [call, name, Text.afterStart?]
  obtain ⟨hweight, hcumulative, hfeature⟩ := hplain
  have hopen : (p.call t).toList.contains '(' = true := by simp [toList_call]
  simp only [Registry.strategy, Registry.resolve, hweight, hcumulative, hfeature, hopen,
    Text.trimChars_of_forall (p.call_not_blank t), String.ofList_toList, ofCall_call, if_true]
  cases p.ofNumber t.double.toFloat <;> rfl

/-! ## What becomes of the number -/

variable {p} {x : Float} {n : ℤ}

theorem exact_of_error (h : Strategy.integer x = .error (.notInteger x)) :
    p.Exact n (p.ofNumber x) := by
  cases p <;> simp only [ofNumber, Strategy.count, h] <;> rfl

theorem toNat_toUInt64 {i : Int64} (h : 0 ≤ i.toInt) : (i.toUInt64.toNat : ℤ) = i.toInt := by
  have hcases : i.toInt = if 2 * i.toUInt64.toNat < 2 ^ 64 then (i.toUInt64.toNat : ℤ)
      else i.toUInt64.toNat - (2 ^ 64 : ℕ) := BitVec.toInt_eq_toNat_cond i.toBitVec
  have hlt := i.toUInt64.toNat_lt
  split at hcases <;> omega

theorem count_of_ok {delta : Int64} (h : Strategy.integer x = .ok delta) : Strategy.count x =
    if delta.toInt < 0 then .error (.notCount delta) else .ok delta.toUInt64 := by
  have hneg : delta < 0 ↔ delta.toInt < 0 := Int64.lt_iff_toInt_lt
  simp only [Strategy.count, h, ← hneg]
  rfl

/-- Strategies for positive numbers only are refused for others. -/
theorem exact_of_count {make : UInt64 → Except Fault Strategy} {delta : Int64}
    (hzero : ∃ fault, make 0 = .error fault ∧ fault.kind = .config)
    (hpos : ∀ w ≠ 0, ∃ s, make w = .ok s ∧ p.parameter? s = some (w.toNat : ℤ))
    (h : Strategy.integer x = .ok delta) :
    p.Exact n (Strategy.count x >>= make) ↔ delta.toInt ≤ 0 ∨ delta.toInt = n := by
  rw [count_of_ok h]
  rcases lt_trichotomy delta.toInt 0 with hneg | heq | hgt
  · rw [if_pos hneg]
    exact iff_of_true rfl (Or.inl hneg.le)
  · obtain ⟨fault, hfault, hkind⟩ := hzero
    obtain rfl : delta = 0 := Int64.toInt_inj.mp heq
    show p.Exact n (make 0) ↔ _
    rw [hfault]
    exact iff_of_true hkind (Or.inl heq.le)
  · have hvalue := toNat_toUInt64 hgt.le
    have hne : delta.toUInt64 ≠ 0 := by
      rintro hzero
      rw [hzero] at hvalue
      exact hgt.ne hvalue
    obtain ⟨s, hmade, hparameter⟩ := hpos _ hne
    rw [if_neg hgt.not_gt]
    show p.Exact n (make delta.toUInt64) ↔ _
    rw [hmade, Exact, hparameter, hvalue, Option.some_inj]
    exact (or_iff_right hgt.not_ge).symm

/-- Numbers that are not positive are no strides and no sizes. -/
theorem exact_of_ok {delta : Int64} (h : Strategy.integer x = .ok delta) :
    p.Exact n (p.ofNumber x) ↔ p ≠ .step ∧ delta.toInt ≤ 0 ∨ delta.toInt = n := by
  cases p with
  | step =>
    have hmade : step.ofNumber x = .ok (.step delta none none) := by
      simp only [ofNumber, h]
      rfl
    simp [hmade, Exact, parameter?]
  | shuffle =>
    have hcount : shuffle.Exact n (Strategy.count x >>= Strategy.ofStride) ↔ _ :=
      exact_of_count ⟨.incrementZero, rfl, rfl⟩
        (fun w hw => ⟨.shuffle w hw, dif_neg hw, rfl⟩) h
    simpa [ofNumber] using hcount
  | head =>
    have hcount : head.Exact n (Strategy.count x >>= Strategy.ofSize) ↔ _ :=
      exact_of_count ⟨.headSizeZero, rfl, rfl⟩ (fun w hw => ⟨.head w hw, dif_neg hw, rfl⟩) h
    simpa [ofNumber] using hcount

/-- What has been read is compared with what was written. -/
theorem call_exact_iff_of_rounded (r : Registry) (p : Parameterized) (t : Literal) {z : ℤ}
    (hz : rounded t.toInt = z) : p.Exact t.toInt (r.strategy (p.call t)) ↔
      2 ^ 63 < |z| ∨ p ≠ .step ∧ z ≤ 0 ∨ min z (2 ^ 63 - 1) = t.toInt := by
  rw [strategy_call]
  have hinteger := t.integer_double hz
  by_cases hlarge : 2 ^ 63 < |z|
  · rw [if_pos hlarge] at hinteger
    exact iff_of_true (exact_of_error hinteger) (Or.inl hlarge)
  · rw [if_neg hlarge] at hinteger
    have hpositive : min z (2 ^ 63 - 1) ≤ 0 ↔ z ≤ 0 := by omega
    rw [exact_of_ok hinteger, toInt_ofIntClamp (not_lt.mp hlarge), hpositive, or_iff_right hlarge]

/-- The greatest number of 64 bits is rounded to the least one that is too large. -/
theorem rounded_greatest : rounded ((2 ^ 63 - 1 : ℤ) : ℚ) = (2 ^ 63 : ℤ) := by
  have hstep : Binary64.step ((2 ^ 63 - 1 : ℤ) : ℚ) = 10 :=
    Binary64.step_eq (by norm_num) (by norm_num) (by norm_num)
  have hfloor : ⌊((2 ^ 63 - 1 : ℤ) : ℚ) / 2 ^ (10 : ℤ)⌋ = 2 ^ 53 - 1 :=
    Int.floor_eq_iff.mpr ⟨by norm_num, by norm_num⟩
  have hnearest : Binary64.nearestEven (((2 ^ 63 - 1 : ℤ) : ℚ) / 2 ^ (10 : ℤ)) = 2 ^ 53 := by
    rw [Binary64.nearestEven, Int.fract, hfloor, if_neg (by norm_num), if_pos (by norm_num)]
    rfl
  rw [rounded, hstep, hnearest]
  norm_num

/-- **The number of a call is the parameter**, or the call is refused, just in four cases: the number
is too large after rounding, it is not positive but has to be, it is a double of its own and not
the least one that is too large, or it is the greatest one of 64 bits. -/
theorem call_exact_iff (r : Registry) (p : Parameterized) (t : Literal) :
    p.Exact t.toInt (r.strategy (p.call t)) ↔
      2 ^ 63 < |rounded t.toInt| ∨ p ≠ .step ∧ t.toInt ≤ 0 ∨
        rounded t.toInt = t.toInt ∧ t.toInt ≠ 2 ^ 63 ∨ t.toInt = 2 ^ 63 - 1 := by
  obtain ⟨z, hz⟩ := Binary64.exists_rounded_intCast t.toInt
  have hlarge : 2 ^ 63 < |(z : ℚ)| ↔ 2 ^ 63 < |z| := by exact_mod_cast Iff.rfl
  have hpositive : z ≤ 0 ↔ t.toInt ≤ 0 := by
    rcases le_or_gt t.toInt 0 with hle | hgt
    · have hmono : rounded t.toInt ≤ rounded (0 : ℤ) := Binary64.rounded_mono (by exact_mod_cast hle)
      rw [hz, Binary64.rounded_intCast (by norm_num)] at hmono
      exact iff_of_true (by exact_mod_cast hmono) hle
    · have hmono : rounded (1 : ℤ) ≤ rounded t.toInt := Binary64.rounded_mono (by exact_mod_cast hgt)
      rw [hz, Binary64.rounded_intCast (by norm_num)] at hmono
      have hone : 1 ≤ z := by exact_mod_cast hmono
      omega
  have hkept : (z : ℚ) = t.toInt ↔ z = t.toInt := Int.cast_inj
  rw [call_exact_iff_of_rounded r p t hz, hz, hlarge, hpositive, hkept]
  refine or_congr_right' fun hsmall => or_congr Iff.rfl ?_
  have hbounds := abs_le.mp (not_lt.mp hsmall)
  have hgreatest (h : t.toInt = 2 ^ 63 - 1) : z = 2 ^ 63 := by
    rw [h, rounded_greatest] at hz
    exact (Int.cast_inj.mp hz).symm
  omega

/-- **Small numbers are kept**, or refused where they have to be positive. -/
theorem call_exact (r : Registry) (p : Parameterized) (t : Literal) (h : |t.toInt| ≤ 2 ^ 53) :
    p.Exact t.toInt (r.strategy (p.call t)) := by
  rw [call_exact_iff_of_rounded r p t (Binary64.rounded_intCast h)]
  have hbounds := abs_le.mp h
  omega

/-- The least odd number of 54 bits is rounded to the even one below. -/
theorem rounded_leastOdd : rounded ((2 ^ 53 + 1 : ℤ) : ℚ) = (2 ^ 53 : ℤ) := by
  have hstep : Binary64.step ((2 ^ 53 + 1 : ℤ) : ℚ) = 1 :=
    Binary64.step_eq (by norm_num) (by norm_num) (by norm_num)
  have hfloor : ⌊((2 ^ 53 + 1 : ℤ) : ℚ) / 2 ^ (1 : ℤ)⌋ = 2 ^ 52 :=
    Int.floor_eq_iff.mpr ⟨by norm_num, by norm_num⟩
  have hnearest : Binary64.nearestEven (((2 ^ 53 + 1 : ℤ) : ℚ) / 2 ^ (1 : ℤ)) = 2 ^ 52 := by
    rw [Binary64.nearestEven, Int.fract, hfloor, if_neg (by norm_num), if_neg (by norm_num)]
    rfl
  rw [rounded, hstep, hnearest]
  norm_num

/-- The least positive number that is no double becomes the one below it, and the least one that is
too large becomes the greatest parameter. -/
theorem call_not_exact :
    ¬ step.Exact 9007199254740993 (Registry.builtins.strategy "step(9007199254740993)") ∧
      ¬ step.Exact 9223372036854775808
        (Registry.builtins.strategy "step(9223372036854775808)") := by
  constructor
  · let t := Literal.unsigned
      ['9', '0', '0', '7', '1', '9', '9', '2', '5', '4', '7', '4', '0', '9', '9', '3']
      (by decide) (by decide)
    have hvalue : t.toInt = 9007199254740993 := rfl
    have hiff := call_exact_iff_of_rounded Registry.builtins step t rounded_leastOdd
    rw [hvalue] at hiff
    exact hiff.not.mpr (by norm_num)
  · let t := Literal.unsigned
      ['9', '2', '2', '3', '3', '7', '2', '0', '3', '6', '8', '5', '4', '7', '7', '5', '8', '0', '8']
      (by decide) (by decide)
    have hvalue : t.toInt = 9223372036854775808 := rfl
    have hrounded : rounded t.toInt = (2 ^ 63 : ℤ) := by
      rw [hvalue]
      exact_mod_cast (Binary64.hasBits_two_pow 63).rounded
    have hiff := call_exact_iff_of_rounded Registry.builtins step t hrounded
    rw [hvalue] at hiff
    exact hiff.not.mpr (by norm_num)

end Parameterized
end SynthData
