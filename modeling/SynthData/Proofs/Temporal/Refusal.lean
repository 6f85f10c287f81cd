import SynthData.Proofs.Generator.Admission
import SynthData.Proofs.Temporal.Days

/-!
# Refusals of days and date-times

Day generators ask for numbers of steps only when they are initialized, and
generators of date-times for times of day too.  What a strategy refuses is
therefore refused at that moment (`Days.init_rejected_iff`,
`Instants.init_rejected_iff`): the request to the times comes first, and the
request to the days is made only if it has been granted.
-/
namespace SynthData

variable {ν τ : Type} {unique : Bool} {fault : Fault} {context : Context} {streams : Streams}

/-- The seconds of a window are a valid range. -/
theorem TimeWindow.validate_of_seconds {w : TimeWindow} {openEnded : Bool} {spec : Spec}
    (h : w.seconds openEnded = .ok spec) : spec.validate = .ok () := by
  have hmin := w.min.seconds_lt
  have hmax := w.max.seconds_lt
  unfold seconds at h
  split at h
  · cases h
  · rename_i hgranularity
    split at h
    · cases h
    · rename_i horder
      have hle : w.min.seconds ≤ w.max.seconds :=
        Nat.le_of_not_lt fun hlt => horder (Or.inl hlt)
      obtain rfl := Except.ok.inj h
      have hlast : ∀ last : Nat, w.min.seconds ≤ last → last < secondsPerDay →
          (Spec.long (Int64.ofNat w.min.seconds) (Int64.ofNat last) w.granularity).validate =
            .ok () := by
        intro last hfirst hlast
        simp only [secondsPerDay] at hmin hlast
        refine Spec.validate_long.mpr ⟨?_, ?_⟩
        · rw [Int64.toInt_ofNat_of_lt (by omega), Int64.toInt_ofNat_of_lt (by omega)]
          omega
        · rw [Int64.le_iff_toInt_le, Int64.toInt_zero] at hgranularity
          omega
      -- a window without width may run on to the end of the day
      split
      · exact hlast lastSecond (Nat.le_of_lt_succ hmin) (by decide)
      · exact hlast w.max.seconds hle hmax

/-! ## Days -/

namespace Days

variable {range : DateRange} {spec : Spec}

/-- A new day generator asks for numbers of steps and initializes them. -/
theorem init_error_iff {d : Distribution ν} (hsteps : range.steps = .ok spec) :
    (init range d unique context .new streams).1 = .error fault ↔
      d.numbers spec unique = .error fault ∨
        ∃ gen, d.numbers spec unique = .ok gen ∧
          (d.machine.init context gen streams).1 = .error fault := by
  simp only [init, new, Phase.requireCreated, hsteps]
  cases hnumbers : d.numbers spec unique with
  | error fault' => simp
  | ok gen =>
    rcases hinit : d.machine.init context gen streams with ⟨fault' | _, gen', streams'⟩
    · simp [hinit]
    · simp [hinit]

/-- **A new day generator fails with a rejection just if the strategy refuses the
request.** -/
theorem init_rejected_iff {s : Strategy} (hsteps : range.steps = .ok spec) :
    (init range s.distribution unique context .new streams).1 = .error fault ∧
      fault.IsRejection ↔ s.Refuses unique fault := by
  obtain ⟨last, -, hvalid⟩ := DateRange.steps_eq_ok hsteps
  rw [init_error_iff hsteps, ← Strategy.numbers_rejected_iff hvalid]
  constructor
  · rintro ⟨hnumbers | ⟨gen, -, hinit⟩, hrejection⟩
    · exact ⟨hnumbers, hrejection⟩
    · exact absurd hrejection (NumberGen.machine_admits context gen streams fault hinit)
  · rintro ⟨hnumbers, hrejection⟩
    exact ⟨Or.inl hnumbers, hrejection⟩

end Days

/-! ## Date-times -/

namespace Instants

variable {range : InstantRange} {window : Spec}

/-- A new generator of date-times asks for times, and then initializes the days
and the times. -/
theorem init_error_iff {d : Distribution ν} {t : Distribution τ}
    (hwindow : range.times.seconds t.openEnded = .ok window) :
    (init range d t unique context .new streams).1 = .error fault ↔
      t.numbers window unique = .error fault ∨
        ∃ gen, t.numbers window unique = .ok gen ∧
          ((Days.init range.days d unique context .new streams).1 = .error fault ∨
            (Days.init range.days d unique context .new streams).1 = .ok () ∧
              (t.machine.init context gen
                (Days.init range.days d unique context .new streams).2.2).1 = .error fault) := by
  simp only [init, new, Phase.requireCreated, hwindow, Days.machine]
  cases hnumbers : t.numbers window unique with
  | error fault' => simp
  | ok gen =>
    rcases hdays : Days.init range.days d unique context .new streams with
      ⟨fault' | _, days, streams'⟩
    · simp
    · rcases hinit : t.machine.init context gen streams' with ⟨fault' | _, gen', streams''⟩
      · simp [hinit]
      · simp [hinit]

/-- **A new generator of date-times fails with a rejection just if the strategy of
the times refuses the request**, or the strategy of the days does and that of the
times makes its numbers. -/
theorem init_rejected_iff {days times : Strategy} {spec : Spec}
    (hsteps : range.days.steps = .ok spec)
    (hwindow : range.times.seconds times.openEnded = .ok window) :
    (init range days.distribution times.distribution unique context .new streams).1 =
        .error fault ∧ fault.IsRejection ↔
      times.Refuses unique fault ∨
        (∃ gen, times.numbers window unique = .ok gen) ∧ days.Refuses unique fault := by
  have htimes : times.numbers window unique = .error fault ∧ fault.IsRejection ↔
      times.Refuses unique fault :=
    Strategy.numbers_rejected_iff (TimeWindow.validate_of_seconds hwindow)
  have hdays : (Days.init range.days days.distribution unique context .new streams).1 =
      .error fault ∧ fault.IsRejection ↔ days.Refuses unique fault :=
    Days.init_rejected_iff hsteps
  rw [init_error_iff (t := times.distribution) hwindow, ← htimes, ← hdays]
  -- only the two requests can be rejected; granted numbers are initialized without
  constructor
  · rintro ⟨hnumbers | ⟨gen, hgen, hfault | ⟨-, hinit⟩⟩, hrejection⟩
    · exact Or.inl ⟨hnumbers, hrejection⟩
    · exact Or.inr ⟨⟨gen, hgen⟩, hfault, hrejection⟩
    · exact absurd hrejection (NumberGen.machine_admits context gen _ fault hinit)
  · rintro (⟨hnumbers, hrejection⟩ | ⟨⟨gen, hgen⟩, hfault, hrejection⟩)
    · exact ⟨Or.inl hnumbers, hrejection⟩
    · exact ⟨Or.inr ⟨gen, hgen, Or.inl hfault⟩, hrejection⟩

end Instants
end SynthData
