import SynthData.Text.Basic

/-!
# Texts, keys and blank space in TOML

A text stands between quotes. Between double quotes a backslash escapes, between single ones every
character stands for itself. Texts between three quotes on either side may have several lines, and
contain one or two quotes in a row; a line feed right after the opening quotes does not count.

A key is one or more names with points between them, where a name is a text of one line or is made
of letters, digits, hyphens and underscores.
-/

namespace SynthData.Toml

open Text Reader

/-- A character that may stand in texts and comments: a tab, or anything but a control character
of ASCII. -/
def isPrintable (c : Char) : Bool :=
  c = '\t' || (' ' ≤ c && c.toNat ≠ 127)

/-- Blanks and tabs. -/
def blanks : Reader Unit := do
  let _ ← takeWhile fun c => c = ' ' || c = '\t'

/-- The end of a line that another one follows. -/
def newline : Reader Unit :=
  char '\n' <|> word ['\r', '\n']

/-- A comment, up to the end of its line. -/
def comment : Reader Unit := do
  char '#'
  let _ ← takeWhile isPrintable

/-- What may stand at the end of a line, and the end itself. -/
def lineEnd : Reader Unit := do
  blanks
  let _ ← optional comment
  newline <|> atEnd

/-- Blanks, comments and ends of lines. -/
def gap : Reader Unit := do
  blanks
  let _ ← many (do let _ ← optional comment; newline; blanks)

/-- The character that a letter stands for after a backslash. -/
def escapeOf? : Char → Option Char
  | 'b' => some (Char.ofNat 8)
  | 't' => some '\t'
  | 'n' => some '\n'
  | 'f' => some (Char.ofNat 12)
  | 'r' => some '\r'
  | '"' => some '"'
  | '\\' => some '\\'
  | _ => none

/-- A character given by a number of a certain count of digits in base sixteen. -/
def codePoint (count : Nat) : Reader Char := fun cs =>
  let ds := cs.take count
  let n := valueIn 16 ds
  if ds.length = count && ds.all (fun c => (digitIn? 16 c).isSome) && decide n.isValidChar then
    some (Char.ofNat n, cs.drop count)
  else none

/-- A backslash and what it escapes. -/
def escape : Reader Char := do
  char '\\'
  let c ← satisfy fun _ => true
  match c with
  | 'u' => codePoint 4
  | 'U' => codePoint 8
  | c => lift (escapeOf? c)

/-- Characters that stand for themselves, among them no quote and, where it escapes, no
backslash. -/
def plain (quote : Char) (escapes : Bool) : Reader (List Char) :=
  takeWhile1 fun c => isPrintable c && c ≠ quote && !(escapes && c = '\\')

/-- A text of one line between double quotes. -/
def escapedText : Reader String := do
  char '"'
  let pieces ← many (plain '"' true <|> (do let c ← escape; return [c]))
  char '"'
  return String.ofList pieces.flatten

/-- A text of one line between single quotes. -/
def literalText : Reader String := do
  char '\''
  let cs ← takeWhile fun c => isPrintable c && c ≠ '\''
  char '\''
  return String.ofList cs

/-- A backslash before the end of a line, which joins the lines without the space between them. -/
def lineJoin : Reader (List Char) := do
  char '\\'
  blanks
  newline
  let _ ← many (newline <|> (do let _ ← takeWhile1 fun c => c = ' ' || c = '\t'))
  return []

/-- One or two quotes inside a text of several lines. -/
def quotesInside (quote : Char) : Reader (List Char) := do
  let quotes ← takeWhile1 (· == quote)
  guard (quotes.length < 3)
  return quotes

/-- The quotes that end a text of several lines. Up to two more quotes before them belong to the
text. -/
def quotesAtEnd (quote : Char) : Reader (List Char) := do
  let quotes ← takeWhile1 (· == quote)
  guard (3 ≤ quotes.length && quotes.length ≤ 5)
  return quotes.drop 3

/-- A text of several lines, of whose pieces some are read in a way of their own. -/
def linesBetween (quote : Char) (piece : Reader (List Char)) : Reader String := do
  word [quote, quote, quote]
  let _ ← optional newline
  let pieces ← many (piece <|> (do newline; return ['\n']) <|> quotesInside quote)
  let last ← quotesAtEnd quote
  return String.ofList (pieces.flatten ++ last)

/-- A text of several lines between double quotes. -/
def escapedLines : Reader String :=
  linesBetween '"' (plain '"' true <|> lineJoin <|> (do let c ← escape; return [c]))

/-- A text of several lines between single quotes. -/
def literalLines : Reader String :=
  linesBetween '\'' (plain '\'' false)

/-- A text of any form. -/
def text : Reader String :=
  escapedLines <|> literalLines <|> escapedText <|> literalText

/-- A letter or digit of ASCII, a hyphen or an underscore. -/
def isNameChar (c : Char) : Bool :=
  (digitIn? 36 c).isSome || c = '-' || c = '_'

/-- One of the names of a key. -/
def name : Reader String :=
  escapedText <|> literalText <|> (do let cs ← takeWhile1 isNameChar; return String.ofList cs)

/-- The number of names from which on a key is too long. -/
def keyLimit : Nat := 80

/-- A key: its names from the outermost table inwards. -/
def key : Reader (List String) := do
  let names ← sepBy1 (do blanks; let n ← name; blanks; return n) (char '.')
  guard (names.length < keyLimit)
  return names

end SynthData.Toml
