import SynthData.Calendar.Basic
import SynthData.Decimal.Text

/-!
# Numbers and values

The numbers that numeric generators produce, and the values that any generator hands out.
-/

namespace SynthData

/-! ## Numbers

The numbers that numeric generators produce: whole numbers of 64 bits and doubles.
-/

/-- A whole number or a double. -/
inductive Number where
  | long (v : Int64)
  | double (v : Double)

namespace Number

/-- The double nearest to a whole number. -/
def nearest (v : Int64) : Float := .ofModel (.ofInt v.toInt)

/-- The number as a double, rounded to the nearest one. -/
def toFloat : Number → Float
  | long v => nearest v
  | double v => v.toFloat

/-- The number as a whole number. Doubles lose their fraction, end at the limits of 64 bits, and
become zero when they are not a number. -/
def toInt64 : Number → Int64
  | long v => v
  | double v => v.toFloat.toInt64

/-- The number as a position in a list; negative numbers become zero. -/
def toIndex : Number → Nat
  | long v => v.toInt.toNat
  | double v => v.toFloat.toUInt64.toNat

/-- Numeric equality: numbers of different kinds differ, and so does a double that is not a number
from itself. -/
def equals : Number → Number → Bool
  | long a, long b => a == b
  | double a, double b => a.toFloat == b.toFloat
  | _, _ => false

/-- The number in full. -/
def text : Number → String
  | long v => toString v.toInt
  | double v => plainText v.toFloat

/-- The number as JSON. -/
def json : Number → String
  | long v => toString v.toInt
  | double v => jsonText v.toFloat

end Number

/-! ## Values

`Value` is what generators hand out: a scalar, a calendar value or a record of named values. A null
is a value like any other; that a generator has run out is said by the absence of a value.

Two values are the same when they are of one kind and have the same content. Doubles are compared
by their bits, so `0.0` and `-0.0` are different, and a double that is not a number equals itself
but not the one of the other sign.
`Value.feed` lists the words by which a value enters a hash; the same values feed the same words.
-/

/-- A value of a generated field. The entries of a record stand in the order of their names, and no
name occurs twice; `Value.ofEntries` brings them into this form. -/
inductive Value where
  | null
  | bool (b : Bool)
  | long (v : Int64)
  | double (v : Double)
  | text (s : String)
  | date (d : Date)
  | time (t : TimeOfDay)
  | dateTime (d : DateTime)
  | record (entries : List (String × Value))

namespace Value

mutual

/-- Whether two values are of one kind and have the same content. -/
def same : Value → Value → Bool
  | null, null => true
  | bool a, bool b => a == b
  | long a, long b => a == b
  | double a, double b => a == b
  | text a, text b => a == b
  | date a, date b => a == b
  | time a, time b => a == b
  | dateTime a, dateTime b => a == b
  | record a, record b => sameEntries a b
  | _, _ => false

/-- Whether two records have the same names with the same values. -/
def sameEntries : List (String × Value) → List (String × Value) → Bool
  | [], [] => true
  | (name, a) :: as, (name', b) :: bs => name == name' && same a b && sameEntries as bs
  | _, _ => false

end

instance : BEq Value := ⟨same⟩

/-- The words by which a text enters a hash. -/
def feedText (s : String) : List UInt64 :=
  UInt64.ofNat s.length :: s.toList.map fun c => UInt64.ofNat c.toNat

/-- The words by which a date enters a hash. -/
def feedDate (d : Date) : List UInt64 :=
  [UInt64.ofInt d.year, UInt64.ofNat d.month, UInt64.ofNat d.day]

/-- The words by which a time of day enters a hash. -/
def feedTime (t : TimeOfDay) : List UInt64 :=
  [UInt64.ofNat t.seconds, UInt64.ofNat t.nanos]

mutual

/-- The words by which a value enters a hash: its kind, then its content. -/
def feed : Value → List UInt64
  | null => [0]
  | bool b => [1, if b then 1 else 0]
  | long v => [2, v.toUInt64]
  | double v => [3, v.bits]
  | text s => 4 :: feedText s
  | date d => 5 :: feedDate d
  | time t => 6 :: feedTime t
  | dateTime d => 7 :: (feedDate d.date ++ feedTime d.time)
  | record entries => 8 :: UInt64.ofNat entries.length :: feedEntries entries

/-- The words of the entries of a record, one after the other. -/
def feedEntries : List (String × Value) → List UInt64
  | [] => []
  | (name, v) :: rest => feedText name ++ feed v ++ feedEntries rest

end

instance : Hashable Value := ⟨fun v => v.feed.foldl mixHash 7⟩

/-- Puts a value under a name, in the order of the names; a value already there is replaced. -/
def insertEntry (name : String) (v : Value) : List (String × Value) → List (String × Value)
  | [] => [(name, v)]
  | (name', v') :: rest =>
    if name = name' then (name, v) :: rest
    else if name < name' then (name, v) :: (name', v') :: rest
    else (name', v') :: insertEntry name v rest

/-- The record with the given entries; of several entries of one name the last one counts. -/
def ofEntries (entries : List (String × Value)) : Value :=
  record (entries.foldl (fun sorted entry => insertEntry entry.1 entry.2 sorted) [])

/-- The number that a scalar stands for in weight functions. -/
def toFloat? : Value → Option Float
  | bool b => some (if b then 1 else 0)
  | long v => some (Number.nearest v)
  | double v => some v.toFloat
  | _ => none

/-- Whether the value is the null. -/
def isNull : Value → Bool
  | null => true
  | _ => false

/-- The value that a list of entries has under a name. -/
def find? (name : String) : List (String × Value) → Option Value
  | [] => none
  | (name', v) :: rest => if name = name' then some v else find? name rest

/-- The value of a record's field; other values have no fields. -/
def field? (name : String) : Value → Option Value
  | record entries => find? name entries
  | _ => none

/-- A number as a value. -/
def ofNumber : Number → Value
  | .long v => long v
  | .double v => double v

end Value

end SynthData
