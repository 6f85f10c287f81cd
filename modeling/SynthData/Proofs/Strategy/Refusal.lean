import SynthData.Strategy.Basic

/-!
# Requests that strategies refuse

A strategy may refuse a request whatever the range is: because it cannot do
without repetitions (`Strategy.check`), or because it makes no numbers at all.
`Strategy.Refuses` says so, and a fault by which some strategy does is a rejection
(`Fault.IsRejection`).

When numbers are asked for, a strategy fails with a rejection just if it refuses
the request (`Strategy.numbers_rejected_iff`).  All other failures are about the
range.
-/
namespace SynthData

/-- The strategy refuses a request for every range: its check does, or it cannot
serve requests for numbers. -/
def Strategy.Refuses (s : Strategy) (unique : Bool) (fault : Fault) : Prop :=
  s.check unique = .error fault ∨
    fault.kind = .unsupported ∧ ∃ spec, s.numbers spec unique = .error fault

/-- Some strategy refuses a request with this fault. -/
def Fault.IsRejection (fault : Fault) : Prop :=
  ∃ (s : Strategy) (unique : Bool), s.Refuses unique fault

/-- The causes that concern a request, and neither a range nor a generator. -/
def Fault.aboutRequest : Fault → Bool
  | .cumulatedUnique => true
  | .walkUnique _ => true
  | .stepUnique => true
  | .weightUnique => true
  | .itemWeightUnique => true
  | .inverseUnique => true
  | .noNumbers => true
  | _ => false

/-- A failure that is handed on is the one that was met. -/
theorem eq_error_of_passed_on {α β : Type} {x : Except Fault α} {fault fault' : Fault}
    (hx : x = .error fault) (h : (.error fault : Except Fault β) = .error fault') :
    x = .error fault' := by
  obtain rfl := Except.error.inj h
  exact hx

/-! ## Failures about the range -/

theorem Spec.aboutRequest_of_validate {spec : Spec} {fault : Fault}
    (h : spec.validate = .error fault) : fault.aboutRequest = false ∧ fault.kind = .config := by
  cases spec with
  | long min max granularity =>
    simp only [validate] at h
    split at h
    · cases h; exact ⟨rfl, rfl⟩
    · split at h
      · cases h; exact ⟨rfl, rfl⟩
      · cases h
  | double min max granularity =>
    simp only [validate] at h
    split at h
    · cases h; exact ⟨rfl, rfl⟩
    · split at h
      · cases h; exact ⟨rfl, rfl⟩
      · split at h
        · cases h; exact ⟨rfl, rfl⟩
        · cases h

namespace Strategy

variable {s : Strategy} {spec : Spec} {unique : Bool} {fault : Fault}

theorem aboutRequest_of_startIndex {initial : Option Float}
    (h : startIndex spec initial = .error fault) :
    fault.aboutRequest = false ∧ fault.kind = .config := by
  unfold startIndex at h
  split at h
  · cases h
  · split at h
    · cases h
    · cases h; exact ⟨rfl, rfl⟩

theorem aboutRequest_of_check (h : s.check unique = .error fault) :
    fault.aboutRequest = true := by
  unfold check at h
  split at h
  · split at h
    · cases h; rfl
    · cases h
  · split at h
    · cases h; rfl
    · cases h
  · split at h
    · cases h; rfl
    · cases h
  · split at h
    · cases h; rfl
    · cases h
  · split at h
    · cases h; rfl
    · cases h
  · cases h

/-- What a failure to make numbers comes from: the request, the range, the start
in the range, or a strategy that makes none. -/
inductive NumbersFault (s : Strategy) (spec : Spec) (unique : Bool) (fault : Fault) : Prop where
  | request : s.check unique = .error fault → NumbersFault s spec unique fault
  | range : spec.validate = .error fault → NumbersFault s spec unique fault
  | start (initial : Option Float) : startIndex spec initial = .error fault →
    NumbersFault s spec unique fault
  | none (weigh : Value → Float) : s = .itemWeight weigh → fault = .noNumbers →
    NumbersFault s spec unique fault

theorem validate_of_overGrid {owner : String} {walk : Walk}
    (h : overGrid owner spec walk = .error fault) : spec.validate = .error fault := by
  unfold overGrid at h
  split at h
  · rename_i fault' hvalidate
    exact eq_error_of_passed_on hvalidate h
  · cases h

theorem numbers_fault (h : s.numbers spec unique = .error fault) :
    s.NumbersFault spec unique fault := by
  -- strategies differ in what they look at first, so the range may be blamed before the request
  cases s with
  | random | shuffle | increment | wedge | bitReverse | fibonacci | padovan | head =>
    exact .range (validate_of_overGrid h)
  | cumulated draws positive =>
    simp only [numbers] at h
    split at h
    · rename_i fault' hcheck
      exact .request (eq_error_of_passed_on hcheck h)
    · exact .range (validate_of_overGrid h)
  | randomWalk least most ordered initial =>
    simp only [numbers] at h
    split at h
    · rename_i fault' hvalidate
      exact .range (eq_error_of_passed_on hvalidate h)
    · rename_i fault' _ hcheck
      exact .request (eq_error_of_passed_on hcheck h)
    · rename_i fault' _ _ hstart
      exact .start initial (eq_error_of_passed_on hstart h)
    · exact .range (validate_of_overGrid h)
  | step delta initial limit =>
    simp only [numbers] at h
    split at h
    · rename_i fault' hvalidate
      exact .range (eq_error_of_passed_on hvalidate h)
    · rename_i fault' _ hcheck
      exact .request (eq_error_of_passed_on hcheck h)
    · rename_i fault' _ _ hstart
      exact .start initial (eq_error_of_passed_on hstart h)
    · exact .range (validate_of_overGrid h)
  | expand pool quota =>
    simp only [numbers] at h
    split at h
    · rename_i fault' hvalidate
      exact .range (eq_error_of_passed_on hvalidate h)
    · cases h
  | weight function | inverse function =>
    simp only [numbers] at h
    split at h
    · rename_i fault' hcheck
      exact .request (eq_error_of_passed_on hcheck h)
    · split at h
      · rename_i fault' hvalidate
        exact .range (eq_error_of_passed_on hvalidate h)
      · cases h
  | itemWeight weigh => exact .none weigh rfl (Except.error.inj h).symm
  | fixed list => cases h

/-! ## Refusals -/

/-- Only strategies that weigh items refuse without a check. -/
theorem refuses_iff : s.Refuses unique fault ↔
    s.check unique = .error fault ∨ (∃ weigh, s = .itemWeight weigh) ∧ fault = .noNumbers := by
  constructor
  · rintro (hcheck | ⟨hkind, spec, hnumbers⟩)
    · exact Or.inl hcheck
    · cases numbers_fault hnumbers with
      | request hcheck => exact Or.inl hcheck
      | range hvalidate =>
        rw [(Spec.aboutRequest_of_validate hvalidate).2] at hkind
        cases hkind
      | start initial hstart =>
        rw [(aboutRequest_of_startIndex hstart).2] at hkind
        cases hkind
      | none weigh hs hfault => exact Or.inr ⟨⟨weigh, hs⟩, hfault⟩
  · rintro (hcheck | ⟨⟨weigh, rfl⟩, rfl⟩)
    · exact Or.inl hcheck
    · exact Or.inr ⟨rfl, .indices 1, rfl⟩

/-- A strategy whose check says no makes no numbers in any range. -/
theorem numbers_of_check (hspec : spec.validate = .ok ()) (h : s.check unique = .error fault) :
    s.numbers spec unique = .error fault := by
  cases s with
  | cumulated | randomWalk | step | weight | inverse => simp only [numbers, hspec, h]
  | random | shuffle | increment | wedge | bitReverse | expand | fibonacci | padovan | head
  | itemWeight | fixed => cases h

end Strategy

theorem Fault.IsRejection.aboutRequest {fault : Fault} (h : fault.IsRejection) :
    fault.aboutRequest = true := by
  obtain ⟨s, unique, hrefuses⟩ := h
  rcases Strategy.refuses_iff.mp hrefuses with hcheck | ⟨-, rfl⟩
  · exact Strategy.aboutRequest_of_check hcheck
  · rfl

namespace Strategy

variable {s : Strategy} {spec : Spec} {unique : Bool} {fault : Fault}

/-- Strategies fail with rejections only when they refuse the request. -/
theorem refuses_of_numbers (h : s.numbers spec unique = .error fault)
    (hrejection : fault.IsRejection) : s.Refuses unique fault := by
  have habout := hrejection.aboutRequest
  cases numbers_fault h with
  | request hcheck => exact Or.inl hcheck
  | range hvalidate =>
    rw [(Spec.aboutRequest_of_validate hvalidate).1] at habout
    cases habout
  | start initial hstart =>
    rw [(aboutRequest_of_startIndex hstart).1] at habout
    cases habout
  | none weigh hs hfault => exact refuses_iff.mpr (Or.inr ⟨⟨weigh, hs⟩, hfault⟩)

/-- **Making numbers fails with a rejection just if the strategy refuses the
request**; which valid range it is does not matter. -/
theorem numbers_rejected_iff (hspec : spec.validate = .ok ()) :
    s.numbers spec unique = .error fault ∧ fault.IsRejection ↔ s.Refuses unique fault := by
  constructor
  · rintro ⟨hnumbers, hrejection⟩
    exact refuses_of_numbers hnumbers hrejection
  · intro hrefuses
    refine ⟨?_, s, unique, hrefuses⟩
    rcases refuses_iff.mp hrefuses with hcheck | ⟨⟨weigh, rfl⟩, rfl⟩
    · exact numbers_of_check hspec hcheck
    · rfl

end Strategy
end SynthData
