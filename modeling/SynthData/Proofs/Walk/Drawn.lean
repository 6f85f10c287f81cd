import SynthData.Proofs.Walk.Ordered
import SynthData.Walk.Drawn

/-!
# Walks by draws

The walks of this module draw from a random stream.  What is said of them holds
for every stream, so for all draws.

Without repetitions the random walk is a shuffle of which only the displaced
places are stored.  `Random.content` reads the whole arrangement off them: the
index at every place.  The places from `drawn` on are pending, and they hold
different indices.
-/
namespace SynthData

/-- An integer that is drawn between two bounds is at least the lower one. -/
theorem Rng.le_between (low high : Int) (rng : Rng) : low ≤ (rng.between low high).1 := by
  unfold between
  dsimp only
  split
  · show low ≤ low + _
    have := Int.emod_nonneg ((rng.below (high - low + 1).toNat).1 - low)
      (show (UInt64.size : Int) ≠ 0 by decide)
    omega
  · show low ≤ low + _
    omega

/-- It is at most the upper bound. -/
theorem Rng.between_le {low high : Int} (h : low ≤ high) (rng : Rng) :
    (rng.between low high).1 ≤ high := by
  have hbelow := rng.below_lt (show 0 < (high - low + 1).toNat by omega)
  unfold between
  dsimp only
  split
  · rename_i hsize
    rw [show UInt64.size = 2 ^ 64 from rfl] at hsize
    show low + ((rng.below (high - low + 1).toNat).1 - low) % 2 ^ 64 ≤ high
    omega
  · show low + _ ≤ high
    omega

namespace Walk

/-! ## Random order -/

namespace Random

/-- The index at a place of the arrangement. -/
def content (w : Random) (place : Nat) : Nat := w.swaps.getD place place

/-- The open places hold different indices of the grid. -/
structure Visits (n : Nat) (w : Random) : Prop where
  count_eq : w.count = n
  count_pos : 0 < n
  content_lt : ∀ p, w.drawn ≤ p → p < n → w.content p < n
  content_inj : ∀ p q, w.drawn ≤ p → p < n → w.drawn ≤ q → q < n →
    w.content p = w.content q → p = q

/-- The indices at the open places. -/
def Pending (w : Random) (i : Nat) : Prop :=
  ∃ p, w.drawn ≤ p ∧ p < w.count ∧ w.content p = i

theorem visits_rewind (w : Random) (spec : Spec) : (w.rewind spec).Visits spec.sampleCount where
  count_eq := rfl
  count_pos := spec.sampleCount_pos
  content_lt := fun p _ hp => by simpa [content, rewind] using hp
  content_inj := fun p q _ _ _ _ h => by simpa [content, rewind] using h

/-- After a place has been drawn, it holds what the first open place held. -/
theorem content_take (w : Random) (place p : Nat) (hp : w.drawn < p) :
    (w.take place).2.content p = if p = place then w.content w.drawn else w.content p := by
  have hne : ¬ w.drawn = p := by omega
  by_cases hplace : p = place
  · subst hplace
    have : ¬ p = w.drawn := by omega
    simp [take, content, this]
  · by_cases hd : place = w.drawn
    · have : ¬ p = w.drawn := fun h => hne h.symm
      simp [take, content, hd, this, hne, Std.HashMap.getD_erase]
    · simp [take, content, hd, hplace, Ne.symm hplace, hne, Std.HashMap.getD_insert,
        Std.HashMap.getD_erase]

theorem take_visits {n : Nat} {w : Random} (hw : w.Visits n) (place : Nat) :
    (w.take place).2.Visits n where
  count_eq := hw.count_eq
  count_pos := hw.count_pos
  content_lt := fun p hp hpn => by
    change w.drawn + 1 ≤ p at hp
    rw [content_take w place p (by omega)]
    split
    · exact hw.content_lt _ (Nat.le_refl _) (by omega)
    · exact hw.content_lt p (by omega) hpn
  content_inj := fun p q hp hpn hq hqn h => by
    change w.drawn + 1 ≤ p at hp
    change w.drawn + 1 ≤ q at hq
    rw [content_take w place p (by omega), content_take w place q (by omega)] at h
    -- the drawn place now stands for the first open one, which is closed
    split at h <;> split at h
    · omega
    · have := hw.content_inj _ q (Nat.le_refl _) (by omega) (by omega) hqn h
      omega
    · have := hw.content_inj p _ (by omega) hpn (Nat.le_refl _) (by omega) h
      omega
    · exact hw.content_inj p q (by omega) hpn (by omega) hqn h

theorem take_spends {n : Nat} {w : Random} (hw : w.Visits n) {place : Nat}
    (hle : w.drawn ≤ place) (hlt : place < n) :
    Spends Pending w (some (w.take place).1) (w.take place).2 := by
  have hcount := hw.count_eq
  -- where an index that is pending afterwards was before
  have origin {i : Nat} (hi : (w.take place).2.Pending i) :
      ∃ p, w.drawn ≤ p ∧ p < n ∧ p ≠ place ∧ w.content p = i := by
    obtain ⟨p, hp, hpn, rfl⟩ := hi
    change w.drawn + 1 ≤ p at hp
    change p < w.count at hpn
    rw [content_take w place p (by omega)]
    split
    · exact ⟨w.drawn, Nat.le_refl _, by omega, by omega, rfl⟩
    · exact ⟨p, by omega, by omega, ‹_›, rfl⟩
  refine ⟨fun i hi => ?_, fun i hi => ?_⟩
  · obtain rfl := Option.some.inj hi
    refine ⟨⟨place, hle, by omega, rfl⟩, fun h => ?_⟩
    obtain ⟨p, hp, hpn, hne, heq⟩ := origin h
    exact hne (hw.content_inj p place hp hpn hle hlt heq)
  · obtain ⟨p, hp, hpn, -, rfl⟩ := origin hi
    exact ⟨p, hp, by omega, rfl⟩

theorem next_visits {n : Nat} {w : Random} (hw : w.Visits n) (rng : Rng) :
    (w.next rng).2.1.Visits n ∧ ∀ i ∈ (w.next rng).1, i < n := by
  have hcount := hw.count_eq
  unfold next
  split
  · split
    · exact ⟨hw, nofun⟩
    · have hoffset := rng.below_lt (show 0 < w.count - w.drawn by omega)
      refine ⟨take_visits hw _, fun i hi => ?_⟩
      obtain rfl := Option.some.inj hi
      exact hw.content_lt _ (Nat.le_add_right _ _) (by omega)
  · refine ⟨hw, fun i hi => ?_⟩
    obtain rfl := Option.some.inj hi
    have := rng.below_lt (hcount ▸ hw.count_pos : 0 < w.count)
    omega

theorem next_unique (w : Random) (rng : Rng) : (w.next rng).2.1.unique = w.unique := by
  unfold next
  split
  · split <;> rfl
  · rfl

theorem next_spends {n : Nat} {w : Random} (hw : w.Visits n) (hunique : w.unique = true)
    (rng : Rng) : Spends Pending w (w.next rng).1 (w.next rng).2.1 := by
  have hcount := hw.count_eq
  simp only [next, hunique, if_true]
  split
  · exact .none
  · have hoffset := rng.below_lt (show 0 < w.count - w.drawn by omega)
    exact take_spends hw (Nat.le_add_right _ _) (by omega)

end Random

/-! ## Means of draws -/

namespace Cumulated

theorem next_lt {n : Nat} {w : Cumulated} (hcount : w.count = n) (hn : 0 < n) (rng : Rng) :
    (w.next rng).2.1.count = n ∧ ∀ i ∈ (w.next rng).1, i < n := by
  refine ⟨hcount, fun i hi => ?_⟩
  obtain rfl := Option.some.inj hi
  exact Nat.lt_of_le_of_lt (Nat.min_le_right _ _) (by omega)

end Cumulated

/-! ## Random steps -/

namespace Drift

/-- The parameters suit a grid: the walk starts on it, and goes up if no index
may be repeated. -/
structure Fits (n : Nat) (w : Drift) : Prop where
  start_lt : w.start < n
  upward : w.unique = true → 0 < w.least.toInt

/-- The present index is on the grid. -/
structure Visits (n : Nat) (w : Drift) : Prop extends w.Fits n where
  count_eq : w.count = n
  current_lt : ∀ c ∈ w.current, c < n

/-- What has not been reached. -/
def Pending (w : Drift) (i : Nat) : Prop := ∃ c ∈ w.current, c ≤ i

theorem visits_rewind {w : Drift} {spec : Spec} (hw : w.Fits spec.sampleCount) :
    (w.rewind spec).Visits spec.sampleCount where
  start_lt := hw.start_lt
  upward := hw.upward
  count_eq := rfl
  current_lt := fun c hc => by
    obtain rfl := Option.some.inj hc
    exact hw.start_lt

/-- A step leads to an index of the grid; without repetitions it leads up. -/
theorem move_spec {n : Nat} {w : Drift} (hcount : w.count = n) (hn : 0 < n) {c : Nat} {step : Int}
    (hstep : w.unique = true → 0 < step) :
    ∀ d ∈ w.move c step, d < n ∧ (w.unique = true → c < d) := by
  intro d hd
  unfold move at hd
  dsimp only [Option.mem_def] at hd
  split at hd
  · rename_i hunique
    split at hd
    · obtain rfl := Option.some.inj hd
      have := hstep hunique
      change Int.ofNat c + step < w.count at *
      refine ⟨?_, fun _ => ?_⟩ <;> simp only [Int.ofNat_eq_natCast] at * <;> omega
    · cases hd
  · rename_i hunique
    obtain rfl := Option.some.inj hd
    have hnonneg := Int.emod_nonneg (Int.ofNat c + step) (show (w.count : Int) ≠ 0 by omega)
    have hlt := Int.emod_lt_of_pos (Int.ofNat c + step) (show (0 : Int) < w.count by omega)
    exact ⟨by omega, fun h => absurd h hunique⟩

theorem next_visits {n : Nat} {w : Drift} (hw : w.Visits n) (rng : Rng) :
    (w.next rng).2.1.Visits n ∧ ∀ i ∈ (w.next rng).1, i < n := by
  cases hc : w.current with
  | none => simp only [next, hc]; exact ⟨hw, nofun⟩
  | some c =>
    have hlt := hw.current_lt c hc
    simp only [next, hc]
    refine ⟨⟨⟨hw.start_lt, hw.upward⟩, hw.count_eq, fun d hd => ?_⟩, fun i hi => ?_⟩
    · exact (move_spec hw.count_eq (by omega)
        (fun h => Int.lt_of_lt_of_le (hw.upward h) (rng.le_between _ _)) d hd).1
    · obtain rfl := Option.some.inj hi
      exact hlt

theorem next_unique (w : Drift) (rng : Rng) : (w.next rng).2.1.unique = w.unique := by
  unfold next
  split <;> rfl

theorem next_spends {n : Nat} {w : Drift} (hw : w.Visits n) (hunique : w.unique = true)
    (rng : Rng) : Spends Pending w (w.next rng).1 (w.next rng).2.1 := by
  cases hc : w.current with
  | none => simp only [next, hc]; exact .none
  | some c =>
    have hlt := hw.current_lt c hc
    simp only [next, hc]
    have higher : ∀ d ∈ w.move c (rng.between w.least.toInt w.most.toInt).1, c < d :=
      fun d hd => (move_spec hw.count_eq (by omega)
        (fun h => Int.lt_of_lt_of_le (hw.upward h) (rng.le_between _ _)) d hd).2 hunique
    refine ⟨fun i hi => ?_, fun i hi => ?_⟩
    · obtain rfl := Option.some.inj hi
      refine ⟨⟨c, hc, Nat.le_refl c⟩, ?_⟩
      rintro ⟨d, hd, hle⟩
      exact absurd (higher d hd) (Nat.not_lt.mpr hle)
    · obtain ⟨d, hd, hle⟩ := hi
      exact ⟨c, hc, Nat.le_of_lt (Nat.lt_of_lt_of_le (higher d hd) hle)⟩

end Drift

end Walk
end SynthData
