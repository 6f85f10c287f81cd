import SynthData.Command.Arguments
import SynthData.Field.Basic
import SynthData.Text.Basic
import SynthData.Value.Text

/-!
# What is written

The program writes records, summaries of configurations, and reports of failures.
-/

namespace SynthData

/-! ## Rows

Records are written one after the other, each on a line of its own: as JSON, or as cells with tabs
between them under a line with the names of the fields.
-/

/-- A value as a cell of a table. Nothing is written for null, and records are written as JSON. -/
def Value.cell : Value → String
  | null => ""
  | text s => s
  | record entries => json (record entries)
  | v => v.plain

namespace Rows

/-- Cells with tabs between them. -/
def joinCells (cells : List String) : String :=
  "\t".intercalate cells

/-- The cells of a record under the names of fields. -/
def cells (names : List String) (v : Value) : List String :=
  names.map fun name => ((v.field? name).map Value.cell).getD ""

/-- The lines before the first record. -/
def header (format : RowFormat) (names : List String) : List String :=
  match format with
  | .json => []
  | .text => [joinCells names]

/-- A record as a line. -/
def line (format : RowFormat) (names : List String) (v : Value) : String :=
  match format with
  | .json => v.json
  | .text => joinCells (cells names v)

/-- The lines of a table of records. -/
def lines (format : RowFormat) (names : List String) (records : List Value) : List String :=
  header format names ++ records.map (line format names)

/-- Lines as they are written: each with a line feed after it. -/
def written (lines : List String) : String :=
  lines.foldl (fun text line => text ++ line ++ "\n") ""

end Rows

/-! ## Summaries

What a configuration says, for people: the settings, then a line for each field.
-/

/-- The values of a kind of field. -/
def FieldKind.summary : FieldKind → String
  | long min max granularity => s!"long [{min.toInt}, {max.toInt}] step {granularity.toInt}"
  | double min max granularity =>
    s!"double [{plainText min}, {plainText max}] step {plainText granularity}"
  | date range => s!"date [{range.min.text}, {range.max.text}] step {range.granularity.text}"
  | dateTime range _ =>
    let first := s!"{range.days.min.text} {range.times.min.text}"
    let last := s!"{range.days.max.text} {range.times.max.text}"
    s!"datetime [{first}, {last}]"
  | values list => s!"{list.length} values"

/-- A field on a line of its own. -/
def Field.summary (f : Field) : String :=
  let mark := if f.unique then " (unique)" else ""
  s!"  {f.name}: {f.kind.summary} via {f.strategyName}{mark}"

/-- The lines about the settings. -/
def Settings.summary (s : Settings) : List String :=
  let seed := match s.seed with
    | some seed => toString seed.toNat
    | none => "(entropy)"
  [s!"  Seed: {seed}",
   s!"  Cache size: {s.cacheSize}",
   s!"  Expand pool size: {s.expandPoolSize}",
   s!"  Unique thresholds: warn {s.uniqueWarnThreshold}, error {s.uniqueErrorThreshold}"]

/-- The lines of a summary. -/
def Config.summary (c : Config) : List String :=
  ["Configuration:"] ++ c.settings.summary ++ ["", "Fields:"] ++ c.fields.map Field.summary

/-! ## Reports of failures

A failure is described from the outside in: what was being done, then its cause, then the cause of
that. The report has the first description on a line of its own and the causes below it, indented,
and numbered if there are several. Descriptions of several lines keep their indentation.
-/

namespace Report

open Text

/-- The lines of a text. -/
def linesOf (s : String) : List String :=
  (splitChars '\n' s.toList).map String.ofList

/-- The lines of a cause, of which the first one gets a mark. -/
def indent (mark margin : String) : List String → List String
  | [] => []
  | first :: rest => (mark ++ first) :: rest.map (margin ++ ·)

/-- The lines of several causes, numbered from a number on. -/
def numbered (n : Nat) : List String → List String
  | [] => []
  | cause :: causes =>
    let number := toString n
    let mark := String.ofList (List.replicate (5 - number.length) ' ') ++ number ++ ": "
    indent mark "       " (linesOf cause) ++ numbered (n + 1) causes

/-- The lines about the causes of a failure. -/
def causes : List String → List String
  | [] => []
  | [cause] => ["", "Caused by:"] ++ indent "    " "    " (linesOf cause)
  | several => ["", "Caused by:"] ++ numbered 0 several

/-- The lines of a report. -/
def lines : List String → List String
  | [] => []
  | failure :: rest => linesOf ("Error: " ++ failure) ++ causes rest

end Report

end SynthData
