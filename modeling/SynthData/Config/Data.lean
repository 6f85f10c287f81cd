import SynthData.Data.Basic
import SynthData.Field.Basic
import SynthData.Toml.Document

/-!
# Configurations as data and as text

Settings and fields are read out of data, and data out of a TOML document.
-/

namespace SynthData

/-! ## Out of data

The functions of this module read settings and fields out of data. Keys that mean nothing are passed
over, and missing ones have defaults where that makes sense.
-/

open Data

/-- Settings from what may stand for each of them. -/
def Settings.ofParts? (seed cache pool warn fail : Option Data) : Option Settings := do
  let seed ← optional toWord? seed
  let cacheSize ← withDefault toWord? ({} : Settings).cacheSize cache
  let expandPoolSize ← withDefault toWord? ({} : Settings).expandPoolSize pool
  let uniqueWarnThreshold ← withDefault toWord? ({} : Settings).uniqueWarnThreshold warn
  let uniqueErrorThreshold ← withDefault toWord? ({} : Settings).uniqueErrorThreshold fail
  return { seed := seed.map UInt64.ofNat, cacheSize, expandPoolSize, uniqueWarnThreshold,
           uniqueErrorThreshold }

/-- Settings from a table, or from a list that has them in order. -/
def Settings.ofData? : Data → Option Settings
  | table entries =>
    Settings.ofParts? (find? "seed" entries) (find? "cache_size" entries)
      (find? "expand_pool_size" entries) (find? "unique_warn_threshold" entries)
      (find? "unique_error_threshold" entries)
  | list items => Settings.ofParts? items[0]? items[1]? items[2]? items[3]? items[4]?
  | _ => none

namespace FieldKind

/-- The kind of a field from the entries of its table. -/
def ofEntries? (entries : List (String × Data)) : Option FieldKind := do
  let type ← (find? "type" entries).bind toText?
  let get {α : Type} (name : String) (read : Data → Option α) : Option α :=
    (find? name entries).bind read
  match type with
  | "long" =>
    let min ← get "min" toInt64?
    let max ← get "max" toInt64?
    let granularity ← withDefault toInt64? 1 (find? "granularity" entries)
    return long min max granularity
  | "double" =>
    let min ← get "min" Data.toFloat?
    let max ← get "max" Data.toFloat?
    let granularity ← withDefault Data.toFloat? 1 (find? "granularity" entries)
    return double min max granularity
  | "date" =>
    let min ← get "min" toDate?
    let max ← get "max" toDate?
    let granularity ← withDefault toGranularity? .daily (find? "granularity" entries)
    return date ⟨min, max, granularity⟩
  | "datetime" =>
    let minDate ← get "min_date" toDate?
    let maxDate ← get "max_date" toDate?
    let dateStep ← withDefault toGranularity? .daily (find? "date_granularity" entries)
    let minTime ← get "min_time" toTime?
    let maxTime ← get "max_time" toTime?
    let timeStep ← withDefault toInt64? 1 (find? "time_granularity" entries)
    let timeStrategy ← optional toText? (find? "time_distribution" entries)
    return dateTime ⟨⟨minDate, maxDate, dateStep⟩, ⟨minTime, maxTime, timeStep⟩⟩ timeStrategy
  | "values" =>
    let list ← get "values" toValues?
    return values list
  | _ => none

end FieldKind

/-- A field from its table. -/
def Field.ofData? : Data → Option Field
  | table entries => do
    let name ← (find? "name" entries).bind toText?
    let strategy ← optional toText? (find? "distribution" entries)
    let unique ← withDefault toBool? false (find? "unique" entries)
    let kind ← FieldKind.ofEntries? entries
    return { name, kind, strategy, unique }
  | _ => none

/-- The fields of a list. -/
def Field.listOfData? : Data → Option (List Field)
  | list items => items.mapM Field.ofData?
  | _ => none

/-- A configuration from a table. -/
def Config.ofData? : Data → Option Config
  | table entries => do
    let settings ← withDefault Settings.ofData? {} (find? "generator" entries)
    let fields ← withDefault Field.listOfData? [] (find? "fields" entries)
    return { settings, fields }
  | _ => none

/-! ## Out of a text

A configuration is written as a TOML document.
-/

/-- Why a text is no configuration. -/
inductive ConfigDefect where
  /-- It is no TOML document. -/
  | malformed
  /-- Its data do not describe settings and fields. -/
  | misfit

/-- The configuration that a text describes. -/
def Config.read (s : String) : Except ConfigDefect Config :=
  match Data.ofToml? s with
  | none => .error .malformed
  | some d =>
    match Config.ofData? d with
    | none => .error .misfit
    | some c => .ok c

end SynthData
