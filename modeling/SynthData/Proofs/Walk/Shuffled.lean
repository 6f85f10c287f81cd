import SynthData.Proofs.Walk.Drawn

/-!
# The shuffle behind the random walk

Without repetitions, the random walk stands for a shuffle of all indices: step `k` of the shuffle
exchanges the entries at the places `k` and `place k`, where `place k` is drawn from the places
from `k` on, and what is then at place `k` is handed out.  `shuffled` is that list, with an entry
for every place.  The walk has no such list, but it stores the entries that are not at their own
place.

`Stores` says that a walk stands for a list, as far as its open places go; one step of the walk
and one of the shuffle keep it (`Stores.take`).  So the walk hands out the entries of the list
that the whole shuffle arranges, one after the other, whatever places are drawn
(`next_shuffles`).
-/
namespace SynthData.Walk.Random

/-! ## The list -/

/-- Places that may be drawn: the one of step `k` is an open one, which is one from `k` on. -/
def Places (n : Nat) (place : Nat → Nat) : Prop :=
  ∀ k, k < n → k ≤ place k ∧ place k < n

/-- The list of all indices below `n` after some steps of the shuffle. -/
def shuffled (n : Nat) (place : Nat → Nat) : (steps : Nat) → Array Nat
  | 0 => Array.range n
  | k + 1 => (shuffled n place k).swapIfInBounds k (place k)

variable {n : Nat} {place : Nat → Nat}

theorem size_shuffled (n : Nat) (place : Nat → Nat) (steps : Nat) :
    (shuffled n place steps).size = n := by
  induction steps with
  | zero => exact Array.size_range
  | succ k ih => rw [shuffled, Array.size_swapIfInBounds, ih]

/-- The shuffle only rearranges. -/
theorem shuffled_perm (n : Nat) (place : Nat → Nat) (steps : Nat) :
    (shuffled n place steps).toList.Perm (List.range n) := by
  induction steps with
  | zero => rw [shuffled, Array.toList_range]
  | succ k ih =>
    rw [shuffled, Array.swapIfInBounds]
    split
    · split
      · exact (Array.swap_perm _ _).toList.trans ih
      · exact ih
    · exact ih

/-- Two places exchange their entries, and all others keep theirs. -/
theorem getElem?_swapIfInBounds {a : Array Nat} {i j : Nat} (hi : i < a.size) (hj : j < a.size)
    (p : Nat) :
    (a.swapIfInBounds i j)[p]? = if p = i then a[j]? else if p = j then a[i]? else a[p]? := by
  by_cases hp : p < a.size
  · rw [Array.getElem?_eq_getElem (by rwa [Array.size_swapIfInBounds]),
      Array.getElem_swapIfInBounds]
    by_cases hpi : p = i
    · simp [hpi, hj]
    · by_cases hpj : p = j
      · subst hpj
        simp [hpi, hi]
      · simp [hpi, hpj, hp]
  · rw [Array.getElem?_eq_none (by rw [Array.size_swapIfInBounds]; omega), if_neg (by omega),
      if_neg (by omega), Array.getElem?_eq_none (by omega)]

/-- Once step `k` has been made, the entry at place `k` stays there. -/
theorem shuffled_fixed (hplace : Places n place) {k steps : Nat} (hk : k < steps)
    (hsteps : steps ≤ n) :
    (shuffled n place steps)[k]? = (shuffled n place (k + 1))[k]? := by
  induction hk with
  | refl => rfl
  | @step m hkm ih =>
    have hkm : k < m := hkm
    obtain ⟨hle, hlt⟩ := hplace m (by omega)
    rw [← ih (by omega), shuffled, getElem?_swapIfInBounds (by rw [size_shuffled]; omega)
      (by rw [size_shuffled]; omega), if_neg (by omega), if_neg (by omega)]

/-! ## The walk beside the list -/

/-- A walk that stands for a list: the entries at the open places agree, and only open places are
stored, no more of them than steps were made. -/
structure Stores (w : Random) (list : Array Nat) : Prop where
  size_eq : list.size = w.count
  content_eq : ∀ p, w.drawn ≤ p → p < w.count → list[p]? = some (w.content p)
  size_le : w.swaps.size ≤ w.drawn
  stored : ∀ p, p ∈ w.swaps → w.drawn ≤ p ∧ p < w.count

theorem Stores.rewind (w : Random) (spec : Spec) :
    (w.rewind spec).Stores (Array.range spec.sampleCount) where
  size_eq := Array.size_range
  content_eq := by
    intro p _ hp
    have hp : p < spec.sampleCount := hp
    simp [content, Random.rewind, hp]
  size_le := Nat.le_of_eq Std.HashMap.size_empty
  stored := by
    intro p hp
    exact absurd hp Std.HashMap.not_mem_empty

/-- What is stored after a step: the first open place is closed, and the drawn one is stored if it
is another one. -/
theorem swaps_take (w : Random) (j : Nat) :
    (w.take j).2.swaps = if j = w.drawn then w.swaps.erase w.drawn
      else (w.swaps.erase w.drawn).insert j (w.content w.drawn) := rfl

/-- **A step of the walk is a step of the shuffle.** -/
theorem Stores.take {w : Random} {list : Array Nat} (hw : w.Stores list) {j : Nat}
    (hle : w.drawn ≤ j) (hlt : j < w.count) :
    (w.take j).2.Stores (list.swapIfInBounds w.drawn j) ∧
      (list.swapIfInBounds w.drawn j)[w.drawn]? = some (w.take j).1 := by
  have hsize := hw.size_eq
  have hswap := getElem?_swapIfInBounds (a := list) (show w.drawn < list.size by omega)
    (show j < list.size by omega)
  have herased : (w.swaps.erase w.drawn).size ≤ w.drawn :=
    Nat.le_trans Std.HashMap.size_erase_le hw.size_le
  have hopen (p : Nat) (hp : p ∈ w.swaps.erase w.drawn) : w.drawn < p ∧ p < w.count := by
    obtain ⟨hne, hmem⟩ := Std.HashMap.mem_erase.mp hp
    have hne : w.drawn ≠ p := by simpa using hne
    have := hw.stored p hmem
    omega
  refine ⟨⟨?size, ?content, ?count, ?stored⟩, ?answer⟩
  case size => rwa [Array.size_swapIfInBounds]
  case content =>
    intro p hp hpn
    have hp : w.drawn < p := hp
    have hpn : p < w.count := hpn
    rw [content_take w j p hp, hswap, if_neg (by omega)]
    by_cases hpj : p = j
    · rw [if_pos hpj, if_pos hpj]
      exact hw.content_eq _ (Nat.le_refl _) (by omega)
    · rw [if_neg hpj, if_neg hpj]
      exact hw.content_eq p (by omega) hpn
  case count =>
    show (w.take j).2.swaps.size ≤ w.drawn + 1
    rw [swaps_take]
    split
    · omega
    · exact Nat.le_trans Std.HashMap.size_insert_le (by omega)
  case stored =>
    intro p hp
    show w.drawn + 1 ≤ p ∧ p < w.count
    rw [swaps_take] at hp
    split at hp
    · exact hopen p hp
    · rcases Std.HashMap.mem_insert.mp hp with hj | hp
      · have hj : j = p := by simpa using hj
        omega
      · exact hopen p hp
  case answer =>
    rw [hswap, if_pos rfl]
    exact hw.content_eq j hle hlt

/-! ## Passes -/

/-- A call of `next` that draws a given place. -/
def nextAt (place : Nat) (w : Random) : Option Nat × Random :=
  if w.count ≤ w.drawn then (none, w)
  else (some (w.take place).1, (w.take place).2)

/-- The walk after some calls, each of which draws the place that is given for it. -/
def afterPlaces (place : Nat → Nat) (w : Random) : (calls : Nat) → Random
  | 0 => w
  | k + 1 => ((afterPlaces place w k).nextAt (place k)).2

/-- The walk after some calls of `next`, and the stream that they leave. -/
def afterCalls (rng : Rng) (w : Random) : (calls : Nat) → Random × Rng
  | 0 => (w, rng)
  | k + 1 => ((afterCalls rng w k).1.next (afterCalls rng w k).2).2

/-- The place that the next call draws from a stream. -/
def drawnPlace (rng : Rng) (w : Random) : Nat :=
  w.drawn + (rng.below (w.count - w.drawn)).1

/-- A call of `next` draws its place from its stream. -/
theorem next_eq_nextAt {w : Random} (hunique : w.unique = true) (rng : Rng) :
    (w.next rng).1 = (w.nextAt (w.drawnPlace rng)).1 ∧
      (w.next rng).2.1 = (w.nextAt (w.drawnPlace rng)).2 := by
  unfold next nextAt
  rw [if_pos hunique]
  by_cases hend : w.count ≤ w.drawn
  · rw [if_pos hend, if_pos hend]
    exact ⟨rfl, rfl⟩
  · rw [if_neg hend, if_neg hend]
    exact ⟨rfl, rfl⟩

/-- How far a walk has come after some calls of a pass over `n` indices. -/
structure Counted (n calls : Nat) (w : Random) : Prop where
  unique_eq : w.unique = true
  count_eq : w.count = n
  drawn_eq : w.drawn = min calls n

theorem counted_rewind {w : Random} (hunique : w.unique = true) (spec : Spec) :
    Counted spec.sampleCount 0 (w.rewind spec) :=
  ⟨hunique, rfl, (Nat.zero_min _).symm⟩

theorem Counted.nextAt {k : Nat} {w : Random} (hw : Counted n k w) (j : Nat) :
    Counted n (k + 1) (w.nextAt j).2 := by
  have hcount := hw.count_eq
  have hdrawn := hw.drawn_eq
  unfold Random.nextAt
  split
  · refine ⟨hw.unique_eq, hcount, ?_⟩
    show w.drawn = min (k + 1) n
    omega
  · refine ⟨hw.unique_eq, hcount, ?_⟩
    show w.drawn + 1 = min (k + 1) n
    omega

theorem Counted.afterCalls {w : Random} (hw : Counted n 0 w) (rng : Rng) (k : Nat) :
    Counted n k (w.afterCalls rng k).1 := by
  induction k with
  | zero => exact hw
  | succ k ih =>
    have hnext := (next_eq_nextAt ih.unique_eq (w.afterCalls rng k).2).2
    show Counted n (k + 1) ((w.afterCalls rng k).1.next (w.afterCalls rng k).2).2.1
    rw [hnext]
    exact ih.nextAt _

/-- **The calls of `next` draw their places from the stream**: they are the calls that draw certain
places, all of which may be drawn. -/
theorem Counted.draws {w : Random} (hw : Counted n 0 w) (rng : Rng) :
    ∃ place, Places n place ∧ ∀ k,
      (w.afterCalls rng k).1 = w.afterPlaces place k ∧
      ((w.afterCalls rng k).1.next (w.afterCalls rng k).2).1 =
        ((w.afterPlaces place k).nextAt (place k)).1 := by
  have hcalls := hw.afterCalls rng
  refine ⟨fun k => (w.afterCalls rng k).1.drawnPlace (w.afterCalls rng k).2, ?_, ?_⟩
  · intro k hk
    have hcount := (hcalls k).count_eq
    have hdrawn := (hcalls k).drawn_eq
    have hoffset := (w.afterCalls rng k).2.below_lt
      (show 0 < (w.afterCalls rng k).1.count - (w.afterCalls rng k).1.drawn by omega)
    dsimp only [drawnPlace]
    omega
  · intro k
    have hnext := next_eq_nextAt (hcalls k).unique_eq (w.afterCalls rng k).2
    suffices hwalk : (w.afterCalls rng k).1 = w.afterPlaces _ k by
      exact ⟨hwalk, by rw [hnext.1, ← hwalk]⟩
    clear hnext
    induction k with
    | zero => rfl
    | succ k ih =>
      have hnext := (next_eq_nextAt (hcalls k).unique_eq (w.afterCalls rng k).2).2
      rw [afterPlaces, ← ih]
      exact hnext

/-- A walk in the course of a pass: it has made as many steps of the shuffle as calls, until it
has made all of them. -/
structure Course (n : Nat) (place : Nat → Nat) (calls : Nat) (w : Random) : Prop
    extends Counted n calls w where
  stores : w.Stores (shuffled n place (min calls n))

theorem course_rewind {w : Random} (hunique : w.unique = true) (spec : Spec)
    (place : Nat → Nat) : Course spec.sampleCount place 0 (w.rewind spec) where
  toCounted := counted_rewind hunique spec
  stores := by
    rw [Nat.zero_min]
    exact .rewind w spec

/-- **A call hands out the entry that the whole shuffle puts at its place**, and none after the
last place. -/
theorem Course.nextAt (hplace : Places n place) {k : Nat} {w : Random}
    (hw : Course n place k w) :
    (w.nextAt (place k)).1 = (shuffled n place n)[k]? ∧
      Course n place (k + 1) (w.nextAt (place k)).2 := by
  have hcount := hw.count_eq
  have hdrawn := hw.drawn_eq
  have hstores := hw.stores
  have hcounted := hw.toCounted.nextAt (place k)
  by_cases hk : k < n
  · obtain ⟨hle, hlt⟩ := hplace k hk
    have hnow : min k n = k := Nat.min_eq_left (Nat.le_of_lt hk)
    have hnext : min (k + 1) n = k + 1 := Nat.min_eq_left hk
    rw [hnow] at hdrawn hstores
    obtain ⟨hafter, hanswer⟩ := hstores.take (j := place k) (by omega) (by omega)
    rw [hdrawn] at hafter hanswer
    have hcall : w.nextAt (place k) = (some (w.take (place k)).1, (w.take (place k)).2) := by
      rw [Random.nextAt, if_neg (by omega)]
    rw [hcall] at hcounted ⊢
    constructor
    · rw [shuffled_fixed hplace hk (Nat.le_refl n)]
      exact hanswer.symm
    · refine ⟨hcounted, ?_⟩
      rw [hnext]
      exact hafter
  · have hnow : min (k + 1) n = min k n := by omega
    have hcall : w.nextAt (place k) = (none, w) := by
      rw [Random.nextAt, if_pos (by omega)]
    rw [hcall] at hcounted ⊢
    constructor
    · rw [Array.getElem?_eq_none (by rw [size_shuffled]; omega)]
    · refine ⟨hcounted, ?_⟩
      rw [hnow]
      exact hstores

theorem Course.after {w : Random} (hw : Course n place 0 w) (hplace : Places n place) (k : Nat) :
    Course n place k (w.afterPlaces place k) := by
  induction k with
  | zero => exact hw
  | succ k ih => exact (ih.nextAt hplace).2

/-- What is stored belongs to open places, and to no more of them than were drawn. -/
theorem Course.stored {w : Random} {k : Nat} (hw : Course n place k w) (hk : k ≤ n) :
    w.swaps.size ≤ k ∧ ∀ p, p ∈ w.swaps → k ≤ p ∧ p < n := by
  have hdrawn := hw.drawn_eq
  rw [Nat.min_eq_left hk] at hdrawn
  constructor
  · exact hdrawn ▸ hw.stores.size_le
  · intro p hp
    have hopen := hw.stores.stored p hp
    rw [hdrawn, hw.count_eq] at hopen
    exact hopen

/-- **The random walk is a shuffle.**  After a pass has begun, the call `k` hands out the entry
that the shuffle of all `n` indices with the same draws puts at place `k`, so the first `n` calls
hand out every index once and the later ones none.  After `k` draws at most `k` places are
stored, all of them open ones.  All of this holds for any places that may be drawn, and the calls
of `next` draw such places from their stream. -/
theorem next_shuffles (w : Random) (hunique : w.unique = true) (spec : Spec) :
    let n := spec.sampleCount
    let start := w.rewind spec
    (∀ place, Places n place →
      (∀ k, ((start.afterPlaces place k).nextAt (place k)).1 = (shuffled n place n)[k]?) ∧
      (shuffled n place n).toList.Perm (List.range n) ∧
      ∀ k, k ≤ n → (start.afterPlaces place k).swaps.size ≤ k ∧
        ∀ p, p ∈ (start.afterPlaces place k).swaps → k ≤ p ∧ p < n) ∧
    ∀ rng, ∃ place, Places n place ∧ ∀ k,
      (start.afterCalls rng k).1 = start.afterPlaces place k ∧
      ((start.afterCalls rng k).1.next (start.afterCalls rng k).2).1 =
        ((start.afterPlaces place k).nextAt (place k)).1 := by
  intro n start
  constructor
  · intro place hplace
    have hcourse := (course_rewind hunique spec place).after hplace
    refine ⟨?_, shuffled_perm n place n, ?_⟩
    · intro k
      exact ((hcourse k).nextAt hplace).1
    · intro k hk
      exact (hcourse k).stored hk
  · intro rng
    exact (counted_rewind hunique spec).draws rng

/-- Five indices, and the last place drawn each time: each index waits there for one step. -/
theorem next_shuffles_lastPlaces :
    (new true).unique = true ∧ Places 5 (fun _ => 4) ∧
      ∀ k, ((((new true).rewind (.long 10 30 5)).afterPlaces (fun _ => 4) k).nextAt 4).1 =
        #[4, 0, 1, 2, 3][k]? := by
  have hplaces : Places 5 (fun _ => 4) := by
    intro k hk
    show k ≤ 4 ∧ 4 < 5
    omega
  have hcount : (Spec.long 10 30 5).sampleCount = 5 := by decide
  have hlist : shuffled 5 (fun _ => 4) 5 = #[4, 0, 1, 2, 3] := by decide
  have hpass := (next_shuffles (new true) rfl (.long 10 30 5)).1 (fun _ => 4)
  rw [hcount, hlist] at hpass
  exact ⟨rfl, hplaces, (hpass hplaces).1⟩

end SynthData.Walk.Random
