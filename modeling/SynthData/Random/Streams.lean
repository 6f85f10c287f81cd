/-!
# Random numbers and where they come from

Generators draw from streams of random numbers, which they get from the context they are
initialized with.
-/

namespace SynthData

/-! ## Streams of random numbers

A stream is a xoshiro256++ generator: four words of state, from which `Rng.next` draws a word.
`Rng.ofSeed` fills the state from one word, and `Rng.jump` moves on by 2¹²⁸ draws, so that streams
that are some jumps apart never overlap.

Draws from a range are unbiased: `Rng.below` takes the high half of the product of a word and the
range, and draws again when the low half falls into the part that would favour some results.
-/

/-- The state of a stream. -/
structure Rng where
  s0 : UInt64
  s1 : UInt64
  s2 : UInt64
  s3 : UInt64
deriving DecidableEq

namespace Rng

/-- The word with its bits moved round to the left. -/
def rotate (x : UInt64) (places : UInt64) : UInt64 :=
  (x <<< places) ||| (x >>> (64 - places))

/-- The next word of the stream. -/
def next (rng : Rng) : UInt64 × Rng :=
  let word := rotate (rng.s0 + rng.s3) 23 + rng.s0
  let t := rng.s1 <<< 17
  let s2 := rng.s2 ^^^ rng.s0
  let s3 := rng.s3 ^^^ rng.s1
  (word, ⟨rng.s0 ^^^ s3, rng.s1 ^^^ s2, s2 ^^^ t, rotate s3 45⟩)

/-- A well mixed word from a counter. -/
def mix (x : UInt64) : UInt64 :=
  let z := (x ^^^ (x >>> 30)) * 0xbf58476d1ce4e5b9
  let z := (z ^^^ (z >>> 27)) * 0x94d049bb133111eb
  z ^^^ (z >>> 31)

/-- The stream that belongs to a seed. -/
def ofSeed (seed : UInt64) : Rng :=
  let step := 0x9e3779b97f4a7c15
  ⟨mix (seed + step), mix (seed + 2 * step), mix (seed + 3 * step), mix (seed + 4 * step)⟩

/-- The words that describe a jump. -/
def jumpWords : List UInt64 :=
  [0x180ec6d33cfd0aba, 0xd5a61266f0c9392c, 0xa9582618e03fc9aa, 0x39abdc4529b1661c]

/-- The bits of the jump words, from the least significant one of the first word. -/
def jumpBits : List Bool :=
  jumpWords.flatMap fun word =>
    (List.range 64).map fun bit => word.toNat.testBit bit

/-- Two states combined bit by bit. -/
def combine (a b : Rng) : Rng :=
  ⟨a.s0 ^^^ b.s0, a.s1 ^^^ b.s1, a.s2 ^^^ b.s2, a.s3 ^^^ b.s3⟩

/-- The stream 2¹²⁸ draws later. -/
def jump (rng : Rng) : Rng :=
  (jumpBits.foldl (fun (sum, rng) bit => (if bit then combine sum rng else sum, rng.next.2))
    ((⟨0, 0, 0, 0⟩ : Rng), rng)).1

/-- The stream a number of jumps later. -/
def jumps : Nat → Rng → Rng
  | 0, rng => rng
  | n + 1, rng => jumps n rng.jump

/-- The result that a word gives in a range of `range` numbers, if it is accepted. Accepted words
are spread evenly over the range. -/
def accept? (range : Nat) (word : UInt64) : Option Nat :=
  let product := word.toNat * range
  if product % UInt64.size < range * Nat.pow 2 (63 - range.log2) then
    some (product / UInt64.size) else none

/-- How many words a draw takes at most. Rejection sampling has no such bound and draws on until a
word is accepted; the two differ only when this many words in a row are refused, of which each has
a chance of at least one half to be accepted. -/
def attempts : Nat := 4096

/-- Draws words until one is accepted. When as many words as there are tries have been refused, the
answer is zero, where rejection sampling would draw another word. -/
def draw (range : Nat) : (tries : Nat) → Rng → Nat × Rng
  | 0, rng => (0, rng)
  | tries + 1, rng =>
    let (word, rng) := rng.next
    match accept? range word with
    | some n => (n, rng)
    | none => draw range tries rng

/-- A number below `range`, where `range` is at least one and at most `2 ^ 64`. -/
def below (range : Nat) (rng : Rng) : Nat × Rng :=
  if range = UInt64.size then
    let (word, rng) := rng.next
    (word.toNat, rng)
  else draw range attempts rng

/-- An integer from `low` to `high`, both included, where the range is at most `2 ^ 64` numbers
wide. A range of that width takes a word as it is: its number is the one that agrees with the word
modulo `2 ^ 64`. -/
def between (low high : Int) (rng : Rng) : Int × Rng :=
  let range := (high - low + 1).toNat
  let (n, rng) := rng.below range
  if range = UInt64.size then (low + (n - low) % UInt64.size, rng) else (low + n, rng)

/-- A double from zero up to but not including one, with 53 random bits. -/
def unit (rng : Rng) : Float × Rng :=
  let (word, rng) := rng.next
  ((word >>> 11).toFloat / 9007199254740992, rng)

theorem accept?_lt {range : Nat} {word : UInt64} {n : Nat} (h : accept? range word = some n) :
    n < range := by
  simp only [accept?] at h
  split at h
  · rename_i hlow
    cases h
    have hrange : 0 < range := Nat.pos_of_ne_zero fun h0 => by simp [h0] at hlow
    exact Nat.div_lt_of_lt_mul ((Nat.mul_lt_mul_right hrange).2 word.toNat_lt)
  · cases h

theorem draw_lt {range tries : Nat} (h : 0 < range) (rng : Rng) :
    (draw range tries rng).1 < range := by
  induction tries generalizing rng with
  | zero => exact h
  | succ tries ih =>
    unfold draw
    cases ha : accept? range rng.next.1 with
    | some n => simpa [ha] using accept?_lt ha
    | none => simpa [ha] using ih rng.next.2

/-- Draws stay below the range. -/
theorem below_lt {range : Nat} (h : 0 < range) (rng : Rng) : (rng.below range).1 < range := by
  unfold below
  split
  · rename_i hr
    rw [hr]
    exact rng.next.1.toNat_lt
  · exact draw_lt h rng

end Rng

/-! ## Settings, contexts and the streams they hand out

A generator gets its settings and its random streams from the `Context` it is initialized with.
With a seed, the `n`-th stream that a context hands out is the seed's stream `n` jumps later, so a
graph of generators that is initialized in the same order sees the same numbers again. Without a
seed streams come from a supply of unpredictable ones.

A context is a value that may be kept and used later; how many streams it has handed out is kept in
`Streams`, which every initialization passes on.
-/

/-- The settings of the engine. -/
structure Settings where
  /-- The seed of reproducible streams. -/
  seed : Option UInt64 := none
  /-- The largest number of values that a sampling generator reads in advance. -/
  cacheSize : Nat := 100000
  /-- The size of the pool that values are drawn from while a source is read. -/
  expandPoolSize : Nat := 100
  /-- The number of repeated values in a row after which a unique generator complains. -/
  uniqueWarnThreshold : Nat := 100
  /-- The number of repeated values in a row after which a unique generator fails. -/
  uniqueErrorThreshold : Nat := 10000
deriving DecidableEq, Inhabited

/-- Settings together with a place in the count of streams. -/
structure Context where
  settings : Settings
  slot : Nat

/-- Everything that contexts hand streams out from. -/
structure Streams where
  /-- The number of contexts made so far. -/
  contexts : Nat
  /-- The number of streams that the context of a slot has handed out. -/
  issued : Nat → Nat
  /-- The streams of contexts without a seed. -/
  entropy : Nat → Rng
  /-- The number of those streams that have been handed out. -/
  spent : Nat

namespace Streams

/-- No context yet. -/
def start (entropy : Nat → Rng) : Streams :=
  ⟨0, fun _ => 0, entropy, 0⟩

/-- A new context with the given settings. -/
def newContext (streams : Streams) (settings : Settings) : Context × Streams :=
  (⟨settings, streams.contexts⟩, { streams with contexts := streams.contexts + 1 })

/-- The next stream of a context. -/
def issue (streams : Streams) (context : Context) : Rng × Streams :=
  match context.settings.seed with
  | some seed =>
    let n := streams.issued context.slot
    (Rng.jumps n (Rng.ofSeed seed),
      { streams with issued := fun slot => if slot = context.slot then n + 1 else streams.issued slot })
  | none => (streams.entropy streams.spent, { streams with spent := streams.spent + 1 })

end Streams

end SynthData
