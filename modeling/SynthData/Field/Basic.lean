import SynthData.Generator.Filtered
import SynthData.Generator.Record
import SynthData.Random.Streams
import SynthData.Strategy.Named
import SynthData.Temporal.Instant
import SynthData.Value.Basic

/-!
# Fields

The fields of the records to generate, and the generators that are made of them.
-/

namespace SynthData

/-! ## Descriptions

A configuration describes the fields of the records to generate: the kind of a field's values, the
strategy that orders them and whether they may be repeated.
-/

/-- The values that a field can have. -/
inductive FieldKind where
  | long (min max granularity : Int64)
  | double (min max granularity : Float)
  | date (range : DateRange)
  /-- Date-times. The times of day have a strategy of their own, or that of the field. -/
  | dateTime (range : InstantRange) (timeStrategy : Option String)
  /-- The values of a list. -/
  | values (list : List Value)

/-- A field of the records to generate. -/
structure Field where
  name : String
  kind : FieldKind
  /-- The name of the strategy, unless it is the default one. -/
  strategy : Option String
  unique : Bool

/-- The strategy of fields that name none. -/
def Field.defaultStrategy : String := "random"

/-- The name of a field's strategy. -/
def Field.strategyName (f : Field) : String :=
  f.strategy.getD defaultStrategy

/-- What is to be generated, and with which settings. -/
structure Config where
  settings : Settings
  fields : List Field

/-! ## From fields to generators

A field's strategy makes the numbers of numeric fields and the steps of dates and times, and it
redistributes the values of a list. A list field whose values must not be repeated also passes
through a filter for values that were there before.
-/

/-- The generator of numbers as values. -/
def numberProducer (numbers : NumberGen) : Producer Value :=
  ⟨Wrapped NumberGen, Mapped.machine "NumberToValue" NumberGen.machine Value.ofNumber,
    .new numbers⟩

/-- The generator of the dates of a range as values. -/
def dateProducer (range : DateRange) (s : Strategy) (unique : Bool) : Producer Value :=
  ⟨Wrapped (Days NumberGen),
    Mapped.machine "DateToValue" (Days.machine range s.distribution unique) Value.date, .new .new⟩

/-- The generator of the date-times of a range as values. -/
def dateTimeProducer (range : InstantRange) (days times : Strategy) (unique : Bool) :
    Producer Value :=
  ⟨Wrapped (Instants NumberGen NumberGen),
    Mapped.machine "DateTimeToValue"
      (Instants.machine range days.distribution times.distribution unique) Value.dateTime,
    .new .new⟩

/-- The generator of the values of a list, in order. -/
def listProducer (values : List Value) : Producer Value :=
  ⟨Leaf (Listed Value), Listed.machine, Listed.new values.toArray⟩

/-- The filter for values that were there before. -/
def uniqueProducer (source : Producer Value) (limit : Option Nat) : Producer Value :=
  ⟨Unique source.State Value, Unique.machine source.machine limit.isSome,
    Unique.new source.state limit⟩

namespace Field

/-- The generator of a range of numbers. -/
def ofRange (s : Strategy) (spec : Spec) (unique : Bool) : Except Fault (Producer Value) :=
  match s.numbers spec unique with
  | .error fault => .error fault
  | .ok numbers => .ok (numberProducer numbers)

/-- The generator of a range of dates, whose steps are counted beforehand. -/
def ofDates (s : Strategy) (range : DateRange) (unique : Bool) : Except Fault (Producer Value) :=
  match range.steps with
  | .error fault => .error fault
  | .ok _ => .ok (dateProducer range s unique)

/-- The generator of a range of date-times. The request to the times, their window and the steps of
the dates are checked beforehand. -/
def ofDateTimes (days times : Strategy) (range : InstantRange) (unique : Bool) :
    Except Fault (Producer Value) :=
  match times.check unique with
  | .error fault => .error fault
  | .ok _ =>
    match range.times.seconds times.openEnded with
    | .error fault => .error fault
    | .ok _ =>
      match range.days.granularity.lastStep range.days.min range.days.max with
      | .error fault => .error fault
      | .ok _ => .ok (dateTimeProducer range days times unique)

/-- The generator of the values of a list that is not empty. -/
def ofValues (name : String) (s : Strategy) (values : List Value) (unique : Bool) :
    Except Fault (Producer Value) :=
  if values.isEmpty then .error (.fieldWithoutValues name)
  else
    match s.applyTo (listProducer values) unique with
    | .error fault => .error fault
    | .ok p => .ok (if unique then uniqueProducer p none else p)

/-- The generator of a field. -/
def producer (r : Registry) (f : Field) : Except Fault (Producer Value) :=
  match r.strategy f.strategyName with
  | .error fault => .error fault
  | .ok s =>
    match f.kind with
    | .long min max granularity => ofRange s (.long min max granularity) f.unique
    | .double min max granularity => ofRange s (.double min max granularity) f.unique
    | .date range => ofDates s range f.unique
    | .dateTime range timeStrategy =>
      match timeStrategy with
      | none => ofDateTimes s s range f.unique
      | some name =>
        match r.strategy name with
        | .error fault => .error fault
        | .ok times => ofDateTimes s times range f.unique
    | .values list => ofValues f.name s list f.unique

/-- The generators of several fields with the names of the fields, in their order. -/
def producers (r : Registry) : List Field → Except Fault (List (String × Producer Value))
  | [] => .ok []
  | f :: fs =>
    match f.producer r with
    | .error fault => .error fault
    | .ok p =>
      match producers r fs with
      | .error fault => .error fault
      | .ok ps => .ok ((f.name, p) :: ps)

/-- The fields of a record generator. -/
def recordFields (r : Registry) (fields : List Field) : Except Fault FieldList :=
  match producers r fields with
  | .error fault => .error fault
  | .ok ps => .ok (.ofList ps)

end Field

end SynthData
