import SynthData.Temporal.Day

/-!
# Days with a time of day

A generator of date-times joins the days of a day generator with times of day that another
distribution chooses, and runs out as soon as one of the two does. Times are whole seconds between
the bounds of a window. A window without width that meets an open-ended distribution runs on to the
last second of the day instead.
-/

namespace SynthData

/-- A window of times of day, with the number of seconds between neighbouring times. -/
structure TimeWindow where
  min : TimeOfDay
  max : TimeOfDay
  granularity : Int64

namespace TimeWindow

/-- The last second of a day. -/
def lastSecond : Nat := 86399

/-- The seconds from midnight that lie in the window. -/
def seconds (w : TimeWindow) (openEnded : Bool) : Except Fault Spec :=
  if w.granularity ≤ 0 then .error (.timeGranularityNotPositive w.granularity)
  else if w.max < w.min then .error (.timesReversed w.min w.max)
  else
    let last := if openEnded && w.min == w.max then lastSecond else w.max.seconds
    .ok (.long (Int64.ofNat w.min.seconds) (Int64.ofNat last) w.granularity)

end TimeWindow

/-- A range of days and a window of times. -/
structure InstantRange where
  days : DateRange
  times : TimeWindow

/-- The choices of days and of times, and the phase. -/
structure Instants (ν τ : Type) where
  days : Days ν
  times : Option τ
  phase : Phase

namespace Instants

variable {ν τ : Type}

/-- The name under which failures are reported. -/
def owner : String := "DateTimeGenerator"

/-- A generator that has chosen nothing. -/
def new : Instants ν τ := ⟨.new, none, .created⟩

/-- Asks for times first, and then initializes the days and the times. -/
def init (range : InstantRange) (d : Distribution ν) (t : Distribution τ) (unique : Bool)
    (context : Context) (g : Instants ν τ) (streams : Streams) :
    Except Fault Unit × Instants ν τ × Streams :=
  match g.phase.requireCreated owner with
  | .error fault => (.error fault, g, streams)
  | .ok _ =>
    match range.times.seconds t.openEnded with
    | .error fault => (.error fault, g, streams)
    | .ok spec =>
      match t.numbers spec unique with
      | .error fault => (.error fault, g, streams)
      | .ok times =>
        match (Days.machine range.days d unique).init context g.days streams with
        | (.error fault, days, streams) => (.error fault, { g with days := days }, streams)
        | (.ok _, days, streams) =>
          match t.machine.init context times streams with
          | (.error fault, _, streams) => (.error fault, { g with days := days }, streams)
          | (.ok _, times, streams) => (.ok (), ⟨days, some times, .running⟩, streams)

/-- The date-time a number of seconds after the beginning of a day. -/
def join (date : Date) (offset : Number) : Except Fault (Option DateTime) :=
  let seconds := offset.toInt64
  match if 0 ≤ seconds then TimeOfDay.ofSeconds? seconds.toInt.toNat else none with
  | some time => .ok (some ⟨date, time⟩)
  | none => .error (.timeOffsetOutside seconds)

/-- The next day with the next time. The time is chosen only if there is a day. -/
def emit (range : InstantRange) (d : Distribution ν) (t : Distribution τ) (unique : Bool)
    (g : Instants ν τ) : Except Fault (Option DateTime) × Instants ν τ :=
  match g with
  | ⟨days, times?, phase⟩ =>
    match (Days.machine range.days d unique).generate days with
    | (.error fault, days) => (.error fault, ⟨days, times?, phase⟩)
    | (.ok none, days) => (.ok none, ⟨days, times?, phase⟩)
    | (.ok (some date), days) =>
      match times? with
      | none => (.ok none, ⟨days, none, phase⟩)
      | some times =>
        match t.machine.generate times with
        | (.error fault, times) => (.error fault, ⟨days, some times, phase⟩)
        | (.ok none, times) => (.ok none, ⟨days, some times, phase⟩)
        | (.ok (some offset), times) => (join date offset, ⟨days, some times, phase⟩)

/-- The generator of the date-times of a range. -/
def machine (range : InstantRange) (d : Distribution ν) (t : Distribution τ) (unique : Bool) :
    Machine (Instants ν τ) DateTime where
  init := init range d t unique
  generate g :=
    match g.phase.requireRunning owner with
    | .error fault => (.error fault, g)
    | .ok _ => emit range d t unique g
  reset g streams :=
    match g.phase with
    | .created =>
      let (context, streams) := streams.defaultContext
      init range d t unique context g streams
    | .closed => (.error (.alreadyClosed owner), g, streams)
    | .running =>
      match (Days.machine range.days d unique).reset g.days streams with
      | (.error fault, days, streams) => (.error fault, { g with days := days }, streams)
      | (.ok _, days, streams) =>
        match g.times with
        | none => (.ok (), { g with days := days }, streams)
        | some times =>
          match t.machine.reset times streams with
          | (answer, times, streams) => (answer, ⟨days, some times, g.phase⟩, streams)
  close g := ⟨(Days.machine range.days d unique).close g.days, g.times.map t.machine.close, .closed⟩
  phase g := g.phase
  threadSafe _ := false
  parallelizable g :=
    (Days.machine range.days d unique).parallelizable g.days &&
      match g.times with
      | some times => t.machine.parallelizable times
      | none => true

end Instants
end SynthData
