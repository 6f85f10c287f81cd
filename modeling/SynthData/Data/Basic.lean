import SynthData.Calendar.Text
import SynthData.Calendar.Granularity
import SynthData.Value.Basic

/-!
# Data

`Data` is what configuration formats have in common: scalars, lists and tables. The functions of
this module read single values out of such data, whatever format it was written in.

A whole number may stand where a double is asked for, but not the other way round. Dates and times
are texts.
-/

namespace SynthData

/-- What a configuration says. No name occurs twice in a table. -/
inductive Data where
  | null
  | bool (b : Bool)
  | integer (n : Int)
  | float (x : Double)
  | text (s : String)
  | list (items : List Data)
  | table (entries : List (String × Data))

namespace Data

/-- The entry of a table under a name. -/
def find? (name : String) (entries : List (String × Data)) : Option Data :=
  (entries.find? fun entry => entry.1 == name).map Prod.snd

/-- A truth value. -/
def toBool? : Data → Option Bool
  | bool b => some b
  | _ => none

/-- A text. -/
def toText? : Data → Option String
  | text s => some s
  | _ => none

/-- Whether an integer is a whole number of 64 bits. -/
def isLong (n : Int) : Bool :=
  decide (Int64.minValue.toInt ≤ n ∧ n ≤ Int64.maxValue.toInt)

/-- A whole number of 64 bits. -/
def toInt64? : Data → Option Int64
  | integer n => if isLong n then some (Int64.ofInt n) else none
  | _ => none

/-- A whole number of 64 bits that is not negative. -/
def toWord? : Data → Option Nat
  | integer n => if 0 ≤ n ∧ n < UInt64.size then some n.toNat else none
  | _ => none

/-- A double, also written as a whole number. -/
def toFloat? : Data → Option Float
  | float x => some x.toFloat
  | integer n => some (Binary.ofInt n)
  | _ => none

/-- A date. -/
def toDate? (d : Data) : Option Date :=
  d.toText?.bind Date.read?

/-- A time of day. -/
def toTime? (d : Data) : Option TimeOfDay :=
  d.toText?.bind TimeOfDay.read?

/-- A calendar step. -/
def toGranularity? (d : Data) : Option Granularity :=
  d.toText?.bind fun s => (Granularity.read s).toOption

/-- Something that may be left out. -/
def optional {α : Type} (read : Data → Option α) : Option Data → Option (Option α)
  | none => some none
  | some null => some none
  | some d => (read d).map some

/-- Something that has a default. -/
def withDefault {α : Type} (read : Data → Option α) (default : α) : Option Data → Option α
  | none => some default
  | some d => read d

mutual

/-- A value of a list field: a truth value, a number, a text or a table of such. -/
def toValue? : Data → Option Value
  | bool b => some (.bool b)
  | integer n =>
    if isLong n then some (.long (Int64.ofInt n))
    else some (.double (Binary.ofInt n))
  | float x => some (.double x)
  | text s => some (.text s)
  | table entries => (toEntries? entries).map Value.ofEntries
  | null => none
  | list _ => none

/-- The values of a table with their names. -/
def toEntries? : List (String × Data) → Option (List (String × Value))
  | [] => some []
  | (name, d) :: rest =>
    match toValue? d, toEntries? rest with
    | some v, some vs => some ((name, v) :: vs)
    | _, _ => none

end

/-- The values of a list. -/
def toValues? : Data → Option (List Value)
  | list items => items.mapM toValue?
  | _ => none

end Data

end SynthData
