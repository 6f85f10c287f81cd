import SynthData.Calendar.Granularity
import SynthData.Grid.Generator

/-!
# Days

A day generator hands out dates that lie a number of calendar steps after the least one. A
distribution chooses the numbers of steps, from zero to the last one that does not pass the greatest
date.
-/

namespace SynthData

/-- A range of dates with a calendar step. -/
structure DateRange where
  min : Date
  max : Date
  granularity : Granularity

namespace DateRange

/-- The numbers of steps that lead to a date of the range. -/
def steps (r : DateRange) : Except Fault Spec :=
  match r.granularity.lastStep r.min r.max with
  | .error fault => .error fault
  | .ok last =>
    if last ≤ Int64.maxValue.toInt then .ok (.long 0 (Int64.ofNat last) 1)
    else .error (.tooManyDateSteps last)

end DateRange

/-- The choice of steps, once it has been made, and the phase. -/
structure Days (ν : Type) where
  steps : Option ν
  phase : Phase

namespace Days

variable {ν : Type}

/-- The name under which failures are reported. -/
def owner : String := "DayGenerator"

/-- A day generator that has chosen nothing. -/
def new : Days ν := ⟨none, .created⟩

/-- Asks the distribution for numbers of steps and initializes them. -/
def init (range : DateRange) (d : Distribution ν) (unique : Bool) (context : Context) (g : Days ν)
    (streams : Streams) : Except Fault Unit × Days ν × Streams :=
  match g.phase.requireCreated owner with
  | .error fault => (.error fault, g, streams)
  | .ok _ =>
    match range.steps with
    | .error fault => (.error fault, g, streams)
    | .ok spec =>
      match d.numbers spec unique with
      | .error fault => (.error fault, g, streams)
      | .ok steps =>
        match d.machine.init context steps streams with
        | (.error fault, _, streams) => (.error fault, g, streams)
        | (.ok _, steps, streams) => (.ok (), ⟨some steps, .running⟩, streams)

/-- The date that a number of steps leads to. -/
def dateAt (range : DateRange) (step : Number) : Except Fault (Option Date) :=
  match range.granularity.advance? range.min step.toInt64.toInt.toNat with
  | some date => .ok (some date)
  | none => .error (.dateStepOutside step)

/-- The date at the next number of steps. -/
def emit (range : DateRange) (d : Distribution ν) (g : Days ν) :
    Except Fault (Option Date) × Days ν :=
  match g with
  | ⟨none, phase⟩ => (.ok none, ⟨none, phase⟩)
  | ⟨some steps, phase⟩ =>
    match d.machine.generate steps with
    | (.error fault, steps) => (.error fault, ⟨some steps, phase⟩)
    | (.ok none, steps) => (.ok none, ⟨some steps, phase⟩)
    | (.ok (some step), steps) => (dateAt range step, ⟨some steps, phase⟩)

/-- The generator of the dates of a range. -/
def machine (range : DateRange) (d : Distribution ν) (unique : Bool) : Machine (Days ν) Date where
  init := init range d unique
  generate g :=
    match g.phase.requireRunning owner with
    | .error fault => (.error fault, g)
    | .ok _ => emit range d g
  reset g streams :=
    match g.phase with
    | .created =>
      let (context, streams) := streams.defaultContext
      init range d unique context g streams
    | .closed => (.error (.alreadyClosed owner), g, streams)
    | .running =>
      match g.steps with
      | none => (.ok (), g, streams)
      | some steps =>
        match d.machine.reset steps streams with
        | (answer, steps, streams) => (answer, ⟨some steps, g.phase⟩, streams)
  close g := ⟨g.steps.map d.machine.close, .closed⟩
  phase g := g.phase
  threadSafe _ := false
  parallelizable g := match g.steps with
    | some steps => d.machine.parallelizable steps
    | none => true

end Days
end SynthData
