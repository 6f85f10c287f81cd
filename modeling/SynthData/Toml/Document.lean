import SynthData.Toml.Quoted
import SynthData.Toml.Scalar
import SynthData.Toml.Tree

/-!
# TOML documents

Values, and the documents that are made of them.
-/

namespace SynthData

/-! ## Values

A value is a text, a number, a truth value, a date or time, or else a list or an inline table of
other values. Lists and inline tables may be nested to a certain depth.
-/

namespace Toml

open Text Reader

/-- A value that is not made of other values. -/
def scalar : Reader Data :=
  (do let s ← text; return .text s) <|> moment <|> float <|> integer <|>
    (do word ['t', 'r', 'u', 'e']; return .bool true) <|>
    (do word ['f', 'a', 'l', 's', 'e']; return .bool false)

/-- A list of values, which may end with a comma. -/
def list (item : Reader Data) : Reader Data := do
  char '['
  let items ← sepBy (do gap; let d ← item; gap; return d) (char ',')
  if !items.isEmpty then
    let _ ← optional (char ',')
  gap
  char ']'
  return .list items

/-- A key and its value. -/
def entry (item : Reader Data) : Reader (List String × Data) := do
  let path ← key
  char '='
  blanks
  let d ← item
  return (path, d)

/-- An inline table: entries on one line. -/
def inlineTable (item : Reader Data) : Reader Data := do
  char '\x7b'
  let entries ← sepBy (do let e ← entry item; blanks; return e) (char ',')
  blanks
  char '\x7d'
  lift (inlineTable? entries)

/-- A value with lists and inline tables nested to a depth. -/
def itemWithin : (depth : Nat) → Reader Data
  | 0 => scalar
  | depth + 1 => list (itemWithin depth) <|> inlineTable (itemWithin depth) <|> scalar

/-- How deep lists and inline tables may be nested. -/
def depthLimit : Nat := 79

/-- A value. -/
def item : Reader Data := itemWithin depthLimit

end Toml

/-! ## Lines and documents

A document is a sequence of lines. Entries before the first header belong to the table of the
document, and those after a header to the table that the header opens. `Data.ofToml?` is the data
that a document describes.
-/

namespace Toml

open Text Reader

/-- A header: of a table, or of one more table of a list. -/
inductive Header where
  | table (path : List String)
  | element (path : List String)

/-- A line of a document. -/
inductive Line where
  | blank
  | header (h : Header)
  | entry (path : List String) (d : Data)

/-- A line with nothing but a comment. -/
def blankLine : Reader Line := do
  blanks
  newline <|> (do comment; newline <|> atEnd)
  return .blank

/-- The header of a list's next table. -/
def elementHeader : Reader Line := do
  blanks
  word ['[', '[']
  let path ← key
  word [']', ']']
  lineEnd
  return .header (.element path)

/-- The header of a table. -/
def tableHeader : Reader Line := do
  blanks
  char '['
  let path ← key
  char ']'
  lineEnd
  return .header (.table path)

/-- An entry on a line of its own. -/
def entryLine : Reader Line := do
  let (path, d) ← entry item
  lineEnd
  return .entry path d

/-- A line of any sort. -/
def line : Reader Line :=
  blankLine <|> elementHeader <|> tableHeader <|> entryLine

/-- The mark that may stand before the first line. -/
def byteOrderMark : Char := Char.ofNat 0xFEFF

/-- The lines of a document. -/
def lines : Reader (List Line) := do
  let _ ← optional (char byteOrderMark)
  let ls ← many line
  blanks
  return ls

/-- A header, if there is one, and the entries below it. -/
structure Section where
  header : Option Header
  values : List (List String × Data)

/-- The entries before the first header, and the sections that begin with a header. -/
def sections : List Line → List (List String × Data) × List Section
  | [] => ([], [])
  | .blank :: rest => sections rest
  | .entry path d :: rest =>
    let (values, others) := sections rest
    ((path, d) :: values, others)
  | .header h :: rest =>
    let (values, others) := sections rest
    ([], ⟨some h, values⟩ :: others)

/-- Adds a section to a document. -/
def addSection (entries : Nodes) (s : Section) : Option Nodes :=
  match s.header with
  | none => s.values.foldlM Nodes.assign entries
  | some (.table path) =>
    path.getLast?.bind fun name => entries.within (Nodes.openTable name s.values) path.dropLast
  | some (.element path) =>
    path.getLast?.bind fun name => entries.within (Nodes.addTable name s.values) path.dropLast

/-- The tables of a document. -/
def document? (ls : List Line) : Option Nodes :=
  let (values, others) := sections ls
  (⟨none, values⟩ :: others).foldlM addSection []

end Toml

/-- The data that a TOML document describes. -/
def Data.ofToml? (s : String) : Option Data := do
  let ls ← Text.Reader.readAll? Toml.lines s.toList
  let entries ← Toml.document? ls
  return .table (Toml.Node.entriesToData entries)

end SynthData
