/-!
# Texts as lists of characters

Texts are read and written character by character. The module holds the blanks that may surround
a text, the digits of unsigned numbers, and readers that take something off the front of a text.
-/

namespace SynthData.Text

/-! ## Blanks

Names, argument lists, granularity texts and configured dates may be surrounded by blanks. A blank
is a character of Unicode's `White_Space` property, and this module holds that table and the
functions that cut blanks off a text.
-/

/-- A character with Unicode's `White_Space` property. -/
def isBlank (c : Char) : Bool :=
  let n := c.toNat
  (9 ≤ n && n ≤ 13) || n == 0x20 || n == 0x85 || n == 0xA0 || n == 0x1680 ||
    (0x2000 ≤ n && n ≤ 0x200A) || n == 0x2028 || n == 0x2029 || n == 0x202F || n == 0x205F ||
    n == 0x3000

/-- The characters from the first one that is not blank. -/
def dropBlanks (cs : List Char) : List Char :=
  cs.dropWhile isBlank

/-- The characters without the blanks at either end. -/
def trimChars (cs : List Char) : List Char :=
  (dropBlanks (dropBlanks cs).reverse).reverse

/-- The text without the blanks at either end. -/
def trimBlanks (s : String) : String :=
  String.ofList (trimChars s.toList)

/-- The pieces between the separators: one more piece than there are separators. -/
def splitChars (sep : Char) : List Char → List (List Char)
  | [] => [[]]
  | c :: cs =>
    if c = sep then [] :: splitChars sep cs
    else match splitChars sep cs with
      | [] => [[c]]
      | piece :: pieces => (c :: piece) :: pieces

theorem splitChars_ne_nil (sep : Char) (cs : List Char) : splitChars sep cs ≠ [] := by
  cases cs with
  | nil => simp [splitChars]
  | cons c cs =>
    unfold splitChars
    split
    · simp
    · split <;> simp

/-- The rest of a text after a given beginning, if the text begins so. -/
def afterStart? : List Char → List Char → Option (List Char)
  | [], cs => some cs
  | _ :: _, [] => none
  | p :: ps, c :: cs => if p = c then afterStart? ps cs else none

/-! ## Decimal digits

Reading and writing unsigned numbers. `spanDigits` splits off the longest run of ASCII digits at the
front of a text; `padded` writes a number with at least a given count of digits. `digitIn?` and
`valueIn` are for other bases than ten.
-/

/-- The value of an ASCII digit. -/
def digit? (c : Char) : Option Nat :=
  if '0' ≤ c ∧ c ≤ '9' then some (c.toNat - '0'.toNat) else none

/-- Whether the character is an ASCII digit. -/
def isDigit (c : Char) : Bool :=
  (digit? c).isSome

/-- The number that a list of digits denotes; characters that are no digits count as zero. -/
def digitsValue (cs : List Char) : Nat :=
  cs.foldl (fun n c => 10 * n + (digit? c).getD 0) 0

/-- The longest run of digits at the front, and what follows it. -/
def spanDigits (cs : List Char) : List Char × List Char :=
  (cs.takeWhile isDigit, cs.dropWhile isDigit)

/-- The value of a digit or letter in a base of at most 36, whatever the letter's case. -/
def digitIn? (base : Nat) (c : Char) : Option Nat :=
  let value? :=
    if '0' ≤ c ∧ c ≤ '9' then some (c.toNat - '0'.toNat)
    else if 'a' ≤ c ∧ c ≤ 'z' then some (c.toNat - 'a'.toNat + 10)
    else if 'A' ≤ c ∧ c ≤ 'Z' then some (c.toNat - 'A'.toNat + 10)
    else none
  value?.filter (· < base)

/-- The number that digits denote in a base; characters that are no digits count as zero. -/
def valueIn (base : Nat) (cs : List Char) : Nat :=
  cs.foldl (fun n c => base * n + (digitIn? base c).getD 0) 0

/-- The unsigned number that the whole text denotes: one or more digits, after one plus sign at
most. -/
def natural? (cs : List Char) : Option Nat :=
  let body := match cs with
    | '+' :: rest => rest
    | _ => cs
  if !body.isEmpty && body.all isDigit then some (digitsValue body) else none

/-- The digits of a number, from the most significant one. -/
def digits (n : Nat) : List Char :=
  Nat.toDigits 10 n

/-- The digits of a number, filled up with zeros on the left to a given count. -/
def padded (width n : Nat) : String :=
  let ds := digits n
  String.ofList (List.replicate (width - ds.length) '0' ++ ds)

/-! ## Readers

A `Reader` takes something off the front of a text and leaves the rest, or it fails. Readers follow
one another in `do` blocks and are tried one after the other with `<|>`, where an attempt that fails
takes nothing. `Reader.many` and `Reader.sepBy` repeat a reader for as long as it succeeds.
-/

/-- Takes a value off the front of a text, or fails. -/
abbrev Reader := StateT (List Char) Option

namespace Reader

variable {α β : Type}

/-- What a reader finds in the whole of a text, of which nothing must be left. -/
def readAll? (r : Reader α) (cs : List Char) : Option α :=
  match r cs with
  | some (a, []) => some a
  | _ => none

/-- One character with a property. -/
def satisfy (p : Char → Bool) : Reader Char := fun cs =>
  match cs with
  | c :: rest => if p c then some (c, rest) else none
  | [] => none

/-- A given character. -/
def char (c : Char) : Reader Unit := do
  let _ ← satisfy (· == c)

/-- A given word. -/
def word (cs : List Char) : Reader Unit := fun text =>
  (afterStart? cs text).map ((), ·)

/-- The characters up to the first one without a property. -/
def takeWhile (p : Char → Bool) : Reader (List Char) := fun cs =>
  some (cs.takeWhile p, cs.dropWhile p)

/-- One or more characters with a property, as many as there are. -/
def takeWhile1 (p : Char → Bool) : Reader (List Char) := do
  let cs ← takeWhile p
  guard (!cs.isEmpty)
  return cs

/-- The end of the text. -/
def atEnd : Reader Unit := fun cs =>
  if cs.isEmpty then some ((), cs) else none

/-- A value, unless there is none. -/
def lift (a : Option α) : Reader α := fun cs => a.map (·, cs)

/-- A reader repeated while it succeeds, at most a number of times. -/
def atMost (r : Reader α) : Nat → Reader (List α)
  | 0 => pure []
  | n + 1 => (do let a ← r; let as ← atMost r n; return a :: as) <|> pure []

/-- A reader repeated while it succeeds. It takes at least one character each time, so the length of
the text bounds the repetitions. -/
def many (r : Reader α) : Reader (List α) := fun cs => atMost r cs.length cs

/-- A reader repeated while it succeeds, with a separator between each two results. -/
def sepBy1 (r : Reader α) (sep : Reader β) : Reader (List α) := do
  let a ← r
  let as ← many (do let _ ← sep; r)
  return a :: as

/-- The same with the possibility that there is no result at all. -/
def sepBy (r : Reader α) (sep : Reader β) : Reader (List α) :=
  sepBy1 r sep <|> pure []

end Reader

end SynthData.Text
