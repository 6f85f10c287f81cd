import SynthData.Calendar.Text
import SynthData.Value.Basic

/-!
# Values as text

`Value.plain` writes a value for people, `Value.json` writes it as JSON without any blanks. In JSON
the calendar values are strings and doubles that are not finite are `null`.
-/

namespace SynthData

namespace Json

/-- A digit of base sixteen. -/
def hexDigit (n : Nat) : Char :=
  if n < 10 then Char.ofNat (48 + n) else Char.ofNat (87 + n)

/-- A character inside a JSON string. Quotes, backslashes and control characters are escaped, and
nothing else. -/
def escapeChar (c : Char) : List Char :=
  if c = '"' then ['\\', '"']
  else if c = '\\' then ['\\', '\\']
  else if c = '\n' then ['\\', 'n']
  else if c = '\r' then ['\\', 'r']
  else if c = '\t' then ['\\', 't']
  else if c.toNat = 8 then ['\\', 'b']
  else if c.toNat = 12 then ['\\', 'f']
  else if c.toNat < 32 then
    ['\\', 'u', '0', '0', hexDigit (c.toNat / 16), hexDigit (c.toNat % 16)]
  else [c]

/-- A text as a JSON string. -/
def quote (s : String) : String :=
  "\"" ++ String.ofList (s.toList.flatMap escapeChar) ++ "\""

end Json

namespace Value

mutual

/-- A value as people write it. -/
def plain : Value → String
  | null => "null"
  | bool b => if b then "true" else "false"
  | long v => toString v.toInt
  | double v => plainText v.toFloat
  | text s => s
  | date d => d.text
  | time t => t.text
  | dateTime d => d.text
  | record entries => "\x7b" ++ ", ".intercalate (plainEntries entries) ++ "\x7d"

/-- The entries of a record, each as name and value. -/
def plainEntries : List (String × Value) → List String
  | [] => []
  | (name, v) :: rest => (name ++ ": " ++ plain v) :: plainEntries rest

end

mutual

/-- A value as JSON. -/
def json : Value → String
  | null => "null"
  | bool b => if b then "true" else "false"
  | long v => toString v.toInt
  | double v => jsonText v.toFloat
  | text s => Json.quote s
  | date d => Json.quote d.text
  | time t => Json.quote t.text
  | dateTime d => Json.quote d.isoText
  | record entries => "\x7b" ++ ",".intercalate (jsonEntries entries) ++ "\x7d"

/-- The entries of a record as members of a JSON object. -/
def jsonEntries : List (String × Value) → List String
  | [] => []
  | (name, v) :: rest => (Json.quote name ++ ":" ++ json v) :: jsonEntries rest

end

end Value
end SynthData
