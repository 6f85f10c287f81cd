import SynthData.Fault.Basic
import SynthData.Field.Basic

/-!
# Checking configurations

Settings, field names and ranges are checked one after the other, and at last a generator is made of
each field; the first objection ends the check. An objection to a field says which field it is
about.
-/

namespace SynthData

/-- An objection to the description of a field. -/
inductive FieldObjection where
  | minAboveMax (min max : Number)
  | unbounded (min max : Float)
  | granularityNotPositive (granularity : Number)
  | datesReversed (min max : Date)
  | dateStepZero
  | firstDateAfterLast (min max : Date)
  | dateTimeStepZero
  | timesReversed (min max : TimeOfDay)
  | timeStepNotPositive (granularity : Int64)
  | noValues
  /-- No generator can be made of the field. -/
  | fault (cause : Fault)

/-- An objection to a configuration. -/
inductive Objection where
  | cacheSizeZero
  | poolSizeZero
  | errorThresholdZero
  | thresholdsReversed (warn fail : Nat)
  | noFields
  | emptyName (position : Nat)
  | repeatedName (name : String)
  | field (name : String) (objection : FieldObjection)

namespace FieldObjection

/-- The wording of an objection to a field. -/
def text : FieldObjection → String
  | minAboveMax min max => s!"min ({min.text}) must not exceed max ({max.text})"
  | unbounded min max =>
    s!"min and max must be finite, got {plainText min} and {plainText max}"
  | granularityNotPositive g => s!"granularity must be positive, got {g.text}"
  | datesReversed min max => s!"min ({min.text}) must not be after max ({max.text})"
  | dateStepZero => "date granularity must not be zero"
  | firstDateAfterLast min max =>
    s!"min_date ({min.text}) must not be after max_date ({max.text})"
  | dateTimeStepZero => "date_granularity must not be zero"
  | timesReversed min max => s!"min_time ({min.text}) must not be after max_time ({max.text})"
  | timeStepNotPositive g => s!"time_granularity must be positive, got {g.toInt}"
  | noValues => "values must not be empty"
  | fault cause => cause.message

end FieldObjection

namespace Objection

/-- The wording of an objection, from the outside in. -/
def chain : Objection → List String
  | cacheSizeZero => ["cache_size must be at least 1"]
  | poolSizeZero => ["expand_pool_size must be at least 1"]
  | errorThresholdZero => ["unique_error_threshold must be at least 1"]
  | thresholdsReversed warn fail =>
    [s!"unique_warn_threshold ({warn}) must not exceed unique_error_threshold ({fail})"]
  | noFields => ["at least one field must be configured"]
  | emptyName position => [s!"field {position} has an empty name"]
  | repeatedName name => [s!"duplicate field name '{name}'"]
  | field name objection => [s!"Invalid field '{name}'", objection.text]

end Objection

/-- Sizes and the limit of repeated values must not be zero, and the warning comes no later than
the failure. -/
def Settings.check (s : Settings) : Except Objection Unit :=
  if s.cacheSize = 0 then .error .cacheSizeZero
  else if s.expandPoolSize = 0 then .error .poolSizeZero
  else if s.uniqueErrorThreshold = 0 then .error .errorThresholdZero
  else if s.uniqueErrorThreshold < s.uniqueWarnThreshold then
    .error (.thresholdsReversed s.uniqueWarnThreshold s.uniqueErrorThreshold)
  else .ok ()

/-- Bounds must be in order, granularities must lead forward and lists must not be empty. -/
def FieldKind.check : FieldKind → Except FieldObjection Unit
  | long min max granularity =>
    if max < min then .error (.minAboveMax (.long min) (.long max))
    else if granularity ≤ 0 then .error (.granularityNotPositive (.long granularity))
    else .ok ()
  | double min max granularity =>
    if !min.isFinite || !max.isFinite then .error (.unbounded min max)
    else if max < min then .error (.minAboveMax (.double min) (.double max))
    else if !(0 < granularity) || !granularity.isFinite then
      .error (.granularityNotPositive (.double granularity))
    else .ok ()
  | date range =>
    if range.max < range.min then .error (.datesReversed range.min range.max)
    else if range.granularity.isZero then .error .dateStepZero
    else .ok ()
  | dateTime range _ =>
    if range.days.max < range.days.min then
      .error (.firstDateAfterLast range.days.min range.days.max)
    else if range.days.granularity.isZero then .error .dateTimeStepZero
    else if range.times.max < range.times.min then
      .error (.timesReversed range.times.min range.times.max)
    else if range.times.granularity ≤ 0 then
      .error (.timeStepNotPositive range.times.granularity)
    else .ok ()
  | values list => if list.isEmpty then .error .noValues else .ok ()

namespace Field

/-- Checks fields from a position on: names must not be blank and not occur among those before. -/
def checkFrom (position : Nat) (before : List String) : List Field → Except Objection Unit
  | [] => .ok ()
  | f :: fs =>
    if (Text.trimChars f.name.toList).isEmpty then .error (.emptyName position)
    else if before.contains f.name then .error (.repeatedName f.name)
    else
      match f.kind.check with
      | .error objection => .error (.field f.name objection)
      | .ok _ => checkFrom (position + 1) (f.name :: before) fs

/-- Checks the fields of a configuration, of which there must be one. -/
def checkAll (fields : List Field) : Except Objection Unit :=
  if fields.isEmpty then .error .noFields else checkFrom 0 [] fields

/-- Makes a generator of each field. -/
def checkProducers (r : Registry) : List Field → Except Objection Unit
  | [] => .ok ()
  | f :: fs =>
    match f.producer r with
    | .error cause => .error (.field f.name (.fault cause))
    | .ok _ => checkProducers r fs

end Field

/-- Checks a configuration as a whole. -/
def Config.check (r : Registry) (c : Config) : Except Objection Unit :=
  match c.settings.check with
  | .error objection => .error objection
  | .ok _ =>
    match Field.checkAll c.fields with
    | .error objection => .error objection
    | .ok _ => Field.checkProducers r c.fields

end SynthData
