import SynthData.Field.Check
import SynthData.Proofs.Strategy.Named
import SynthData.Proofs.Temporal.Refusal

/-!
# Rejections that a check leaves for later

Checking a configuration makes a generator of each field, and so reports what the
strategies of numbers and lists refuse.  Fields of dates and date-times ask their
strategies for numbers only when they are initialized; the check asks no more than
whether the strategy of the times can do without repetitions.  `Field.Defers` lists
what remains, one constructor for each request that is made too late.

The record of an accepted configuration is rejected when it is initialized just if
one of its fields defers a rejection and the fields before it can be initialized
(`Config.rejected_iff_defers`).
-/
namespace SynthData

variable {r : Registry} {context : Context} {streams : Streams} {fault : Fault}

namespace Field

/-- A strategy of the field refuses a request that is made only when the field is
initialized. -/
inductive Defers (r : Registry) (f : Field) (fault : Fault) : Prop where
  /-- The steps of dates. -/
  | date (range : DateRange) (s : Strategy) : f.kind = .date range →
    r.strategy f.strategyName = .ok s → s.Refuses f.unique fault → Defers r f fault
  /-- The times of date-times. -/
  | times (range : InstantRange) (name : Option String) (s : Strategy) :
    f.kind = .dateTime range name → r.strategy (name.getD f.strategyName) = .ok s →
      s.Refuses f.unique fault → Defers r f fault
  /-- The steps of the dates of date-times, after the times have been granted. -/
  | days (range : InstantRange) (name : Option String) (s times : Strategy) (window : Spec)
    (gen : NumberGen) : f.kind = .dateTime range name → r.strategy f.strategyName = .ok s →
      r.strategy (name.getD f.strategyName) = .ok times →
      range.times.seconds times.openEnded = .ok window →
      times.numbers window f.unique = .ok gen → s.Refuses f.unique fault → Defers r f fault

/-! ## The generator of a field -/

variable {s times : Strategy} {p : Producer Value} {unique : Bool}

theorem ofRange_admits {spec : Spec} (h : ofRange s spec unique = .ok p) : p.machine.Admits := by
  unfold ofRange at h
  split at h
  · cases h
  · obtain rfl := Except.ok.inj h
    exact Mapped.machine_admits NumberGen.machine_admits _ _

theorem ofValues_admits {name : String} {list : List Value}
    (h : ofValues name s list unique = .ok p) : p.machine.Admits := by
  have hlist : (listProducer list).machine.Admits := Listed.machine_admits
  have hanswers : (listProducer list).machine.Answers := Listed.machine_answers
  unfold ofValues at h
  split at h
  · cases h
  · split at h
    · cases h
    · rename_i source hsource
      have hadmits := Strategy.applyTo_admits hlist hanswers hsource
      obtain rfl := Except.ok.inj h
      cases unique with
      | true => exact Unique.machine_admits hadmits _
      | false => exact hadmits

theorem ofDates_rejected_iff {range : DateRange} (h : ofDates s range unique = .ok p) :
    (p.machine.init context p.state streams).1 = .error fault ∧ fault.IsRejection ↔
      s.Refuses unique fault := by
  unfold ofDates at h
  split at h
  · cases h
  · rename_i spec hsteps
    obtain rfl := Except.ok.inj h
    have hinit : ((dateProducer range s unique).machine.init context
        (dateProducer range s unique).state streams).1 =
          (Days.init range s.distribution unique context .new streams).1 :=
      Wrapped.init_new "DateToValue" (Days.machine range s.distribution unique) .new context streams
    rw [hinit]
    exact Days.init_rejected_iff hsteps

theorem ofDateTimes_rejected_iff {range : InstantRange}
    (h : ofDateTimes s times range unique = .ok p) :
    ∃ window, range.times.seconds times.openEnded = .ok window ∧ ∀ fault,
      (p.machine.init context p.state streams).1 = .error fault ∧ fault.IsRejection ↔
        times.Refuses unique fault ∨
          (∃ gen, times.numbers window unique = .ok gen) ∧ s.Refuses unique fault := by
  unfold ofDateTimes at h
  split at h
  · cases h
  · split at h
    · cases h
    · rename_i window hwindow
      split at h
      · cases h
      · rename_i last hlast
        obtain rfl := Except.ok.inj h
        have hsteps := (DateRange.steps_eq_indices hlast).2
        have hinit : ((dateTimeProducer range s times unique).machine.init context
            (dateTimeProducer range s times unique).state streams).1 =
              (Instants.init range s.distribution times.distribution unique context .new
                streams).1 :=
          Wrapped.init_new "DateTimeToValue"
            (Instants.machine range s.distribution times.distribution unique) .new context streams
        rw [hinit]
        exact ⟨window, hwindow, fun _ => Instants.init_rejected_iff hsteps hwindow⟩

variable {f : Field}

theorem defers_date_iff {range : DateRange} (hkind : f.kind = .date range)
    (hs : r.strategy f.strategyName = .ok s) :
    f.Defers r fault ↔ s.Refuses f.unique fault := by
  constructor
  · intro h
    cases h with
    | date range' s' _ hs' hrefuses =>
      rw [hs] at hs'
      exact Except.ok.inj hs' ▸ hrefuses
    | times _ _ _ hkind' _ _ => rw [hkind] at hkind'; cases hkind'
    | days _ _ _ _ _ _ hkind' _ _ _ _ _ => rw [hkind] at hkind'; cases hkind'
  · intro hrefuses
    exact .date range s hkind hs hrefuses

theorem defers_dateTime_iff {range : InstantRange} {name : Option String} {window : Spec}
    (hkind : f.kind = .dateTime range name) (hs : r.strategy f.strategyName = .ok s)
    (htimes : r.strategy (name.getD f.strategyName) = .ok times)
    (hwindow : range.times.seconds times.openEnded = .ok window) :
    f.Defers r fault ↔ times.Refuses f.unique fault ∨
      (∃ gen, times.numbers window f.unique = .ok gen) ∧ s.Refuses f.unique fault := by
  constructor
  · intro h
    cases h with
    | date _ _ hkind' _ _ => rw [hkind] at hkind'; cases hkind'
    | times range' name' times' hkind' htimes' hrefuses =>
      rw [hkind] at hkind'
      cases hkind'
      rw [htimes] at htimes'
      exact Or.inl (Except.ok.inj htimes' ▸ hrefuses)
    | days range' name' s' times' window' gen hkind' hs' htimes' hwindow' hgen hrefuses =>
      rw [hkind] at hkind'
      cases hkind'
      rw [htimes] at htimes'
      obtain rfl := Except.ok.inj htimes'
      rw [hwindow] at hwindow'
      obtain rfl := Except.ok.inj hwindow'
      rw [hs] at hs'
      obtain rfl := Except.ok.inj hs'
      exact Or.inr ⟨⟨gen, hgen⟩, hrefuses⟩
  · rintro (hrefuses | ⟨⟨gen, hgen⟩, hrefuses⟩)
    · exact .times range name times hkind htimes hrefuses
    · exact .days range name s times window gen hkind hs htimes hwindow hgen hrefuses

/-- Fields of numbers and lists defer nothing. -/
theorem not_defers (hdate : ∀ range, f.kind ≠ .date range)
    (hdateTime : ∀ range name, f.kind ≠ .dateTime range name) : ¬ f.Defers r fault := by
  intro h
  cases h with
  | date range _ hkind _ _ => exact hdate range hkind
  | times range name _ hkind _ _ => exact hdateTime range name hkind
  | days range name _ _ _ _ hkind _ _ _ _ _ => exact hdateTime range name hkind

/-- **A field whose generator could be made is rejected when it is initialized
just if it defers a rejection.** -/
theorem producer_rejected_iff (hp : f.producer r = .ok p) :
    (p.machine.init context p.state streams).1 = .error fault ∧ fault.IsRejection ↔
      f.Defers r fault := by
  -- the kinds that ask for everything when the generator is made
  have hserved (hadmits : p.machine.Admits) (hdefers : ¬ f.Defers r fault) :
      (p.machine.init context p.state streams).1 = .error fault ∧ fault.IsRejection ↔
        f.Defers r fault := by
    refine iff_of_false ?_ hdefers
    rintro ⟨hfault, hrejection⟩
    exact hadmits context p.state streams fault hfault hrejection
  unfold producer at hp
  split at hp
  · cases hp
  · rename_i s hs
    split at hp
    · rename_i hkind
      exact hserved (ofRange_admits hp) (not_defers (by simp [hkind]) (by simp [hkind]))
    · rename_i hkind
      exact hserved (ofRange_admits hp) (not_defers (by simp [hkind]) (by simp [hkind]))
    · rename_i range hkind
      rw [defers_date_iff hkind hs]
      exact ofDates_rejected_iff hp
    · rename_i range name hkind
      split at hp
      · obtain ⟨window, hwindow, hiff⟩ := ofDateTimes_rejected_iff hp
        rw [defers_dateTime_iff hkind hs hs hwindow]
        exact hiff fault
      · rename_i name
        split at hp
        · cases hp
        · rename_i times htimes
          obtain ⟨window, hwindow, hiff⟩ := ofDateTimes_rejected_iff hp
          rw [defers_dateTime_iff hkind hs htimes hwindow]
          exact hiff fault
    · rename_i hkind
      exact hserved (ofValues_admits hp) (not_defers (by simp [hkind]) (by simp [hkind]))

end Field

/-! ## The record of several fields -/

namespace FieldList

/-- A new record answers what its fields answer. -/
theorem producer_init (list : FieldList) (context : Context) (streams : Streams) :
    (list.producer.machine.init context list.producer.state streams).1 =
      (list.fields.init context list.states streams).1 := by
  show (Record.init list.fields context (.new list.states) streams).1 = _
  rcases hinit : list.fields.init context list.states streams with ⟨fault | _, states, streams'⟩
  · simp [Record.init, Record.new, Phase.requireCreated, hinit]
  · simp [Record.init, Record.new, Phase.requireCreated, hinit]

/-- The fields of a list with one more field before them. -/
def cons (name : String) (p : Producer Value) (list : FieldList) : FieldList :=
  ⟨p.State × list.State, .cons name p.machine list.fields, (p.state, list.states)⟩

/-- A first field that fails is the last one that is asked. -/
theorem init_cons_of_error {name : String} {p : Producer Value} {list : FieldList}
    (h : (p.machine.init context p.state streams).1 = .error fault) :
    ((cons name p list).fields.init context (cons name p list).states streams).1 =
      .error fault := by
  rcases hinit : p.machine.init context p.state streams with ⟨fault' | _, state, streams'⟩
  · rw [hinit] at h
    simpa [cons, Fields.init, hinit] using h
  · rw [hinit] at h
    cases h

theorem init_cons_of_ok {name : String} {p : Producer Value} {list : FieldList}
    (h : (p.machine.init context p.state streams).1 = .ok ()) :
    ((cons name p list).fields.init context (cons name p list).states streams).1 =
      (list.fields.init context list.states
        (p.machine.init context p.state streams).2.2).1 := by
  rcases hinit : p.machine.init context p.state streams with ⟨fault' | _, state, streams'⟩
  · rw [hinit] at h
    cases h
  · simp [cons, Fields.init, hinit]

end FieldList

namespace Field

variable {f : Field} {fs : List Field} {p : Producer Value}

theorem recordFields_cons (hp : f.producer r = .ok p) {list : FieldList}
    (hlist : recordFields r fs = .ok list) :
    recordFields r (f :: fs) = .ok (list.cons f.name p) := by
  unfold recordFields at hlist
  split at hlist
  · cases hlist
  · rename_i ps hps
    obtain rfl := Except.ok.inj hlist
    simp only [recordFields, producers, hp, hps]
    rfl

theorem recordFields_cons_eq_ok {list : FieldList} (h : recordFields r (f :: fs) = .ok list) :
    ∃ p rest, f.producer r = .ok p ∧ recordFields r fs = .ok rest ∧
      list = rest.cons f.name p := by
  simp only [recordFields, producers] at h
  cases hp : f.producer r with
  | error fault => simp [hp] at h
  | ok p =>
    cases hps : producers r fs with
    | error fault => simp [hp, hps] at h
    | ok ps =>
      simp only [hp, hps] at h
      exact ⟨p, .ofList ps, rfl, by simp only [recordFields, hps], (Except.ok.inj h).symm⟩

/-- The record of the fields can be made and initialized. -/
def Start (r : Registry) (context : Context) (streams : Streams) (fs : List Field) : Prop :=
  ∃ list, recordFields r fs = .ok list ∧
    (list.producer.machine.init context list.producer.state streams).1 = .ok ()

theorem start_nil (r : Registry) (context : Context) (streams : Streams) :
    Start r context streams [] :=
  ⟨.ofList [], rfl, rfl⟩

theorem start_cons_iff (hp : f.producer r = .ok p) : Start r context streams (f :: fs) ↔
    (p.machine.init context p.state streams).1 = .ok () ∧
      Start r context (p.machine.init context p.state streams).2.2 fs := by
  constructor
  · rintro ⟨list, hlist, hinit⟩
    obtain ⟨p', rest, hp', hrest, rfl⟩ := recordFields_cons_eq_ok hlist
    rw [hp] at hp'
    obtain rfl := Except.ok.inj hp'
    rw [FieldList.producer_init] at hinit
    cases hfirst : (p.machine.init context p.state streams).1 with
    | error fault =>
      rw [FieldList.init_cons_of_error hfirst] at hinit
      cases hinit
    | ok _ =>
      rw [FieldList.init_cons_of_ok hfirst] at hinit
      exact ⟨rfl, rest, hrest, by rw [FieldList.producer_init]; exact hinit⟩
  · rintro ⟨hfirst, rest, hrest, hinit⟩
    refine ⟨_, recordFields_cons hp hrest, ?_⟩
    rw [FieldList.producer_init, FieldList.init_cons_of_ok hfirst, ← FieldList.producer_init]
    exact hinit

/-- **The record of the fields is rejected just if one of them defers a rejection**
and those before it can be initialized. -/
theorem recordFields_rejected_iff {list : FieldList} (h : recordFields r fs = .ok list) :
    (list.producer.machine.init context list.producer.state streams).1 = .error fault ∧
        fault.IsRejection ↔
      ∃ before f after, fs = before ++ f :: after ∧ Start r context streams before ∧
        f.Defers r fault := by
  rw [FieldList.producer_init]
  -- each field finds the streams as the fields before it have left them
  induction fs generalizing list streams with
  | nil =>
    obtain rfl := Except.ok.inj h
    constructor
    · rintro ⟨hfault, -⟩
      cases hfault
    · rintro ⟨before, f, after, hsplit, -⟩
      cases before <;> cases hsplit
  | cons f fs ih =>
    obtain ⟨p, rest, hp, hrest, rfl⟩ := recordFields_cons_eq_ok h
    have hfield : (p.machine.init context p.state streams).1 = .error fault ∧
        fault.IsRejection ↔ f.Defers r fault := producer_rejected_iff hp
    -- a failing first field hides those after it; otherwise the first failure is among them
    simp only [List.cons_eq_append_iff]
    cases hfirst : (p.machine.init context p.state streams).1 with
    | error fault' =>
      rw [FieldList.init_cons_of_error hfirst]
      rw [hfirst] at hfield
      constructor
      · intro hrejected
        exact ⟨[], f, fs, Or.inl ⟨rfl, rfl⟩, start_nil r context streams, hfield.mp hrejected⟩
      · rintro ⟨before, f', after, ⟨rfl, hsplit⟩ | ⟨before', rfl, -⟩, hstart, hdefers⟩
        · obtain ⟨rfl, rfl⟩ := List.cons.inj hsplit
          exact hfield.mpr hdefers
        · rw [start_cons_iff hp, hfirst] at hstart
          cases hstart.1
    | ok _ =>
      rw [FieldList.init_cons_of_ok hfirst, ih hrest]
      constructor
      · rintro ⟨before, f', after, rfl, hstart, hdefers⟩
        exact ⟨f :: before, f', after, Or.inr ⟨before, rfl, rfl⟩,
          (start_cons_iff hp).mpr ⟨hfirst, hstart⟩, hdefers⟩
      · rintro ⟨before, f', after, ⟨rfl, hsplit⟩ | ⟨before', rfl, rfl⟩, hstart, hdefers⟩
        · obtain ⟨rfl, rfl⟩ := List.cons.inj hsplit
          have hfault := (hfield.mpr hdefers).1
          rw [hfirst] at hfault
          cases hfault
        · exact ⟨before', f', after, rfl, ((start_cons_iff hp).mp hstart).2, hdefers⟩

/-- Checked fields have generators, and so does their record. -/
theorem recordFields_of_checkProducers (h : checkProducers r fs = .ok ()) :
    ∃ list, recordFields r fs = .ok list := by
  induction fs with
  | nil => exact ⟨_, rfl⟩
  | cons f fs ih =>
    unfold checkProducers at h
    split at h
    · cases h
    · rename_i p hp
      obtain ⟨list, hlist⟩ := ih h
      exact ⟨_, recordFields_cons hp hlist⟩

/-- A day of a month, as a mean of draws and without repetitions. -/
def meanDay : Field where
  name := "day"
  kind := .date ⟨⟨2024, 1, 1, by decide⟩, ⟨2024, 1, 31, by decide⟩, .daily⟩
  strategy := some "cumulated"
  unique := true

theorem meanDay_producer : meanDay.producer Registry.builtins =
    .ok (dateProducer ⟨⟨2024, 1, 1, by decide⟩, ⟨2024, 1, 31, by decide⟩, .daily⟩
      Registry.plainCumulated true) := by
  have hname : meanDay.strategyName = "cumulated" := rfl
  unfold producer
  rw [hname, Registry.builtins_cumulated]
  rfl

end Field

namespace Config

theorem checkProducers_of_check {c : Config} (h : c.check r = .ok ()) :
    Field.checkProducers r c.fields = .ok () := by
  unfold check at h
  split at h
  · cases h
  · split at h
    · cases h
    · exact h

/-- **The record of an accepted configuration is rejected when it is initialized
just if a field defers a rejection.**  There is always a record; and the rejection
comes up if the fields before that field can be initialized. -/
theorem rejected_iff_defers {c : Config} (h : c.check r = .ok ()) :
    ∃ list, Field.recordFields r c.fields = .ok list ∧ ∀ context streams fault,
      (list.producer.machine.init context list.producer.state streams).1 = .error fault ∧
          fault.IsRejection ↔
        ∃ before f after, c.fields = before ++ f :: after ∧
          Field.Start r context streams before ∧ f.Defers r fault := by
  obtain ⟨list, hlist⟩ := Field.recordFields_of_checkProducers (checkProducers_of_check h)
  exact ⟨list, hlist, fun context streams fault => Field.recordFields_rejected_iff hlist⟩

/-- The days of a month, as means of draws and without repetitions. -/
def meanDays : Config where
  settings := {}
  fields := [Field.meanDay]

theorem meanDays_check : meanDays.check .builtins = .ok () := by
  have hsettings : meanDays.settings.check = .ok () := rfl
  have hfields : Field.checkAll meanDays.fields = .ok () := rfl
  have hproducers : Field.checkProducers .builtins meanDays.fields = .ok () := by
    simp only [meanDays, Field.checkProducers, Field.meanDay_producer]
  simp only [check, hsettings, hfields, hproducers]

theorem rejected_iff_defers_meanDays : meanDays.check .builtins = .ok () ∧
    ∃ list, Field.recordFields .builtins meanDays.fields = .ok list ∧
      ∀ context streams fault,
        (list.producer.machine.init context list.producer.state streams).1 = .error fault ∧
            fault.IsRejection ↔
          ∃ before f after, meanDays.fields = before ++ f :: after ∧
            Field.Start .builtins context streams before ∧ f.Defers .builtins fault :=
  ⟨meanDays_check, rejected_iff_defers meanDays_check⟩

/-- The days are accepted, and rejected whenever they are initialized. -/
theorem meanDays_rejected : meanDays.check .builtins = .ok () ∧
    ∃ list, Field.recordFields .builtins meanDays.fields = .ok list ∧
      ∀ context streams,
        (list.producer.machine.init context list.producer.state streams).1 =
            .error .cumulatedUnique ∧
          Fault.cumulatedUnique.IsRejection := by
  have hlist : Field.recordFields .builtins meanDays.fields = .ok _ :=
    Field.recordFields_cons Field.meanDay_producer rfl
  refine ⟨meanDays_check, _, hlist, fun context streams => ?_⟩
  have hdefers : Field.meanDay.Defers .builtins .cumulatedUnique :=
    .date _ Registry.plainCumulated rfl Registry.builtins_cumulated (Or.inl rfl)
  exact (Field.recordFields_rejected_iff hlist).mpr
    ⟨[], Field.meanDay, [], rfl, Field.start_nil _ context streams, hdefers⟩

end Config
end SynthData
