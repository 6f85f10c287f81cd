import SynthData.Generator.Sample
import SynthData.Proofs.Depletion.Sources
import SynthData.Proofs.Generator.Completeness
import SynthData.Proofs.Temporal.Days
import SynthData.Proofs.Weight.Points
import SynthData.Weight.Individual

/-!
# Chosen values that run out for good

Days, times and positions are chosen by the numbers of a distribution, and run out
when those do.  A sampler that has read its source does not ask it again before it
is reset, so it is only the choice that matters.  Values drawn by their own weights
do not run out at all unless there are none: there is a share for each of them
(`Individual.Shares`).
-/
namespace SynthData

variable {σ ν τ α : Type}

section

variable {d : Distribution ν} {t : Distribution τ} {meanwhile : σ → σ → Prop} {inv dry : ν → Prop}
  {unique : Bool}

/-! ## Days and times -/

namespace Days

variable {range : DateRange}

/-- A step that leads to no date is a failure. -/
theorem dateAt_ne_none (range : DateRange) (n : Number) : dateAt range n ≠ .ok none := by
  unfold dateAt
  split
  · nofun
  · nofun

/-- A day generator refuses, has no steps to count, or answers as its steps do. -/
theorem generate_asks (range : DateRange) (d : Distribution ν) (unique : Bool) (g : Days ν) :
    ((∃ fault, ((machine range d unique).generate g).1 = .error fault) ∧
        ((machine range d unique).generate g).2 = g) ∨
      g.phase = .running ∧
        ((g.steps = none ∧ (machine range d unique).generate g = (.ok none, g)) ∨
          ∃ steps, g.steps = some steps ∧
            ((machine range d unique).generate g).2 =
              ⟨some (d.machine.generate steps).2, .running⟩ ∧
            (((machine range d unique).generate g).1 = .ok none →
              (d.machine.generate steps).1 = .ok none) ∧
            ∀ date, ((machine range d unique).generate g).1 = .ok (some date) →
              ∃ n, (d.machine.generate steps).1 = .ok (some n)) := by
  obtain ⟨steps, phase⟩ := g
  cases phase with
  | created | closed => exact Or.inl ⟨⟨_, rfl⟩, rfl⟩
  | running =>
    refine Or.inr ⟨rfl, ?_⟩
    cases steps with
    | none => exact Or.inl ⟨rfl, rfl⟩
    | some steps =>
      refine Or.inr ⟨steps, rfl, ?_⟩
      rcases hgenerate : d.machine.generate steps with ⟨fault | _ | n, steps'⟩
      · simp [machine, emit, Phase.requireRunning, hgenerate]
      · simp [machine, emit, Phase.requireRunning, hgenerate]
      · simp [machine, emit, Phase.requireRunning, hgenerate, dateAt_ne_none]

theorem settles (hm : d.machine.Settles Machine.Alone inv dry)
    (hnew : ∀ spec numbers, d.numbers spec unique = .ok numbers → inv numbers) :
    (machine range d unique).Settles Machine.Alone (Sound inv)
      (fun g => g.phase ≠ .created ∧ g.Sound dry) where
  toKeeps := machine_keeps hm.toKeeps fun spec steps _ => hnew spec steps
  meanwhile_inv := fun _ _ _ h => h.elim
  ends := by
    intro g hg h
    rcases generate_asks range d unique g with
      ⟨⟨fault, hfault⟩, -⟩ | ⟨hphase, ⟨hsteps, hsame⟩ | ⟨steps, hsteps, hstate, hnone, -⟩⟩
    · rw [hfault] at h
      cases h
    · rw [hsame]
      exact ⟨by simp [hphase], by simp [Sound, hsteps]⟩
    · rw [hstate]
      refine ⟨by rintro ⟨⟩, ?_⟩
      rintro _ ⟨⟩
      exact hm.ends steps (hg steps hsteps) (hnone h)
  answer := by
    rintro g date hg ⟨-, hdry⟩ h
    rcases generate_asks range d unique g with
      ⟨⟨fault, hfault⟩, -⟩ | ⟨-, ⟨-, hsame⟩ | ⟨steps, hsteps, -, -, hsome⟩⟩
    · rw [hfault] at h
      cases h
    · rw [hsame] at h
      cases h
    · obtain ⟨n, hn⟩ := hsome date h
      exact hm.answer steps n (hg steps hsteps) (hdry steps hsteps) hn
  init_dry := by
    rintro context g streams - hdry
    obtain ⟨fault, hfault, -⟩ := g.phase.requireCreated_error owner hdry.1
    simpa only [machine, init, hfault] using hdry
  generate_dry := by
    rintro g hg ⟨hphase, hdry⟩
    rcases generate_asks range d unique g with
      ⟨-, hsame⟩ | ⟨-, ⟨-, hsame⟩ | ⟨steps, hsteps, hstate, -⟩⟩
    · rw [hsame]
      exact ⟨hphase, hdry⟩
    · rw [hsame]
      exact ⟨hphase, hdry⟩
    · rw [hstate]
      refine ⟨by rintro ⟨⟩, ?_⟩
      rintro _ ⟨⟩
      exact hm.generate_dry steps (hg steps hsteps) (hdry steps hsteps)
  close_dry := by
    rintro g hg ⟨-, hdry⟩
    refine ⟨by rintro ⟨⟩, fun steps hsteps => ?_⟩
    obtain ⟨steps', hsteps', rfl⟩ := Option.map_eq_some_iff.mp hsteps
    exact hm.close_dry steps' (hg steps' hsteps') (hdry steps' hsteps')
  meanwhile_dry := fun _ _ _ _ h => h.elim

end Days

namespace Instants

variable {range : InstantRange} {invDays dryDays : Days ν → Prop} {inv dry : τ → Prop}

theorem settles (hd : (Days.machine range.days d unique).Settles Machine.Alone invDays dryDays)
    (ht : t.machine.Settles Machine.Alone inv dry)
    (hnew : ∀ spec numbers, t.numbers spec unique = .ok numbers → inv numbers) :
    (machine range d t unique).Settles Machine.Alone
      (fun g => invDays g.days ∧ ∀ times ∈ g.times, inv times)
      (fun g => g.phase ≠ .created ∧ (dryDays g.days ∨ ∀ times ∈ g.times, dry times)) where
  toKeeps := machine_keeps_times hd.toKeeps ht.toKeeps fun spec times _ => hnew spec times
  meanwhile_inv := fun _ _ _ h => h.elim
  ends := by
    rintro g ⟨hdays, htimes⟩ h
    rcases generate_timed range d t unique g with
      ⟨⟨fault, hfault⟩, -⟩ | ⟨-, times, hstate, htimed⟩
    · rw [hfault] at h
      cases h
    · rw [hstate]
      rw [h] at htimed
      refine ⟨by rintro ⟨⟩, ?_⟩
      cases htimed with
      | noDay hday => exact Or.inl (hd.ends g.days hdays hday)
      | noTimes _ _ _ => exact Or.inr (by simp)
      | asked date s _ _ hs hnone _ =>
        right
        rintro _ ⟨⟩
        exact ht.ends s (htimes s hs) (hnone rfl)
  answer := by
    rintro g instant ⟨hdays, htimes⟩ ⟨-, hdry⟩ h
    rcases generate_timed range d t unique g with
      ⟨⟨fault, hfault⟩, -⟩ | ⟨-, times, -, htimed⟩
    · rw [hfault] at h
      cases h
    · rw [h] at htimed
      cases htimed with
      | asked date s _ hday hs _ hsome =>
        obtain ⟨n, hn, -⟩ := hsome instant rfl
        rcases hdry with hdry | hdry
        · exact hd.answer g.days date hdays hdry hday
        · exact ht.answer s n (htimes s hs) (hdry s hs) hn
  init_dry := by
    rintro context g streams - hdry
    obtain ⟨fault, hfault, -⟩ := g.phase.requireCreated_error owner hdry.1
    simpa only [machine, init, hfault] using hdry
  generate_dry := by
    rintro g ⟨hdays, htimes⟩ ⟨hphase, hdry⟩
    rcases generate_timed range d t unique g with ⟨-, hsame⟩ | ⟨-, times, hstate, htimed⟩
    · rw [hsame]
      exact ⟨hphase, hdry⟩
    · rw [hstate]
      refine ⟨by rintro ⟨⟩, hdry.imp (hd.generate_dry g.days hdays) fun hdry => ?_⟩
      have hboth : ∀ s ∈ times, inv s ∧ dry s :=
        htimed.keeps (fun s hs => ⟨ht.generate s hs.1, ht.generate_dry s hs.1 hs.2⟩)
          fun s hs => ⟨htimes s hs, hdry s hs⟩
      exact fun s hs => (hboth s hs).2
  close_dry := by
    rintro g ⟨hdays, htimes⟩ ⟨-, hdry⟩
    refine ⟨by rintro ⟨⟩, hdry.imp (hd.close_dry g.days hdays) fun hdry times h => ?_⟩
    obtain ⟨times', htimes', rfl⟩ := Option.map_eq_some_iff.mp h
    exact ht.close_dry times' (htimes times' htimes') (hdry times' htimes')
  meanwhile_dry := fun _ _ _ _ h => h.elim

end Instants

/-! ## Sources read into memory -/

variable {m : Machine σ α} {invSource drySource : σ → Prop}

namespace Sample

/-- Something happens to the source of a sampler. -/
def Meanwhile (meanwhile : σ → σ → Prop) (s s' : Sample σ ν α) : Prop :=
  s.wrapped.Meanwhile meanwhile s'.wrapped ∧ s' = { s with wrapped := s'.wrapped }

/-- An invariant of what chooses the positions, if anything does. -/
def ChooserInv (inv : ν → Prop) : Chooser ν α → Prop
  | .positions numbers => inv numbers
  | .nothing | .single _ => True

/-- There is nothing left to choose. -/
def ChooserDry (dry : ν → Prop) : Chooser ν α → Prop
  | .nothing => True
  | .single constant => constant.phase ≠ .created ∧ constant.cursor.once && constant.cursor.emitted
  | .positions numbers => dry numbers

theorem choose_inv (hm : d.machine.Keeps inv)
    (hnew : ∀ n numbers, d.numbers (.indices n) unique = .ok numbers → inv numbers)
    (context : Context) (values : Array α) (streams : Streams) {chooser : Chooser ν α}
    (h : (choose d unique context values streams).1 = .ok chooser) : ChooserInv inv chooser := by
  unfold choose at h
  split at h
  · obtain rfl := Except.ok.inj h
    trivial
  · cases unique
    all_goals
      obtain rfl := Except.ok.inj h
      trivial
  · split at h
    · cases h
    · rename_i numbers hnumbers
      have hleft := hm.init context numbers streams (hnew _ numbers hnumbers)
      split at h
      · cases h
      · rename_i hinit
        rw [hinit] at hleft
        obtain rfl := Except.ok.inj h
        exact hleft

theorem materialize_inv (hs : m.Keeps invSource) (hm : d.machine.Keeps inv)
    (hnew : ∀ n numbers, d.numbers (.indices n) unique = .ok numbers → inv numbers)
    (context : Context) {s : Sample σ ν α} (streams : Streams)
    (h : invSource s.wrapped.source ∧ ChooserInv inv s.chooser) :
    let s' := (materialize m d unique context s streams).2.1
    invSource s'.wrapped.source ∧ ChooserInv inv s'.chooser := by
  have hread := Machine.readAhead_keeps hs.generate context.settings.cacheSize h.1
  unfold materialize
  rcases hahead : m.readAhead context.settings.cacheSize s.wrapped.source with
    ⟨fault | ⟨values, truncated⟩, source⟩
  all_goals rw [hahead] at hread
  · exact ⟨hread, h.2⟩
  · have hchoose (chooser : Chooser ν α)
        (h : (choose d unique context values streams).1 = .ok chooser) :=
      choose_inv hm hnew context values streams h
    dsimp only
    rcases hchosen : choose d unique context values streams with ⟨fault | chooser, streams'⟩
    · exact ⟨hread, h.2⟩
    · exact ⟨hread, hchoose chooser (by rw [hchosen])⟩

theorem loader_keeps (hs : m.Keeps invSource) (hm : d.machine.Keeps inv)
    (hnew : ∀ n numbers, d.numbers (.indices n) unique = .ok numbers → inv numbers) :
    (loader m d unique).Keeps invSource fun s => ChooserInv inv s.chooser where
  place _ _ _ h := h
  load context _ streams hsource h := materialize_inv hs hm hnew context streams ⟨hsource, h⟩

theorem machine_keeps (hs : m.Keeps invSource) (hm : d.machine.Keeps inv)
    (hnew : ∀ n numbers, d.numbers (.indices n) unique = .ok numbers → inv numbers) :
    (machine m d unique).Keeps
      (fun s => invSource s.wrapped.source ∧ ChooserInv inv s.chooser) where
  init := fun context _ streams h =>
    (loads m d unique).init_keeps hs (loader_keeps hs hm hnew) context streams h
  generate := by
    rintro ⟨⟨source, phase⟩, context, values, truncated, chooser⟩ h
    cases phase with
    | created | closed => exact h
    | running =>
      cases chooser with
      | nothing | single => exact h
      | positions numbers =>
        rw [(generate_positions source context values truncated numbers).1]
        exact ⟨h.1, hm.generate numbers h.2⟩
  reset := fun _ streams h =>
    (loads m d unique).reset_keeps hs (loader_keeps hs hm hnew) streams h
  close := by
    rintro ⟨wrapped, context, values, truncated, chooser⟩ h
    refine ⟨hs.close _ h.1, ?_⟩
    cases chooser with
    | nothing | single => trivial
    | positions numbers => exact hm.close numbers h.2

theorem settles (hs : m.Settles meanwhile invSource drySource)
    (hm : d.machine.Settles Machine.Alone inv dry)
    (hnew : ∀ spec numbers, d.numbers spec unique = .ok numbers → inv numbers) :
    (machine m d unique).Settles (Meanwhile meanwhile)
      (fun s => invSource s.wrapped.source ∧ ChooserInv inv s.chooser)
      (fun s => s.wrapped.phase ≠ .created ∧ ChooserDry dry s.chooser) where
  toKeeps := machine_keeps hs.toKeeps hm.toKeeps fun n => hnew (.indices n)
  meanwhile_inv := by
    rintro s s' h ⟨⟨hother, -⟩, heq⟩
    exact ⟨hs.meanwhile_inv _ _ h.1 hother, by rw [heq]; exact h.2⟩
  ends := by
    rintro ⟨⟨source, phase⟩, context, values, truncated, chooser⟩ ⟨-, hinv⟩ h
    cases phase with
    | created | closed => cases h
    | running =>
      cases chooser with
      | nothing => exact ⟨by rintro ⟨⟩, trivial⟩
      | single constant => exact ⟨by rintro ⟨⟩, Constant.settles.ends constant trivial h⟩
      | positions numbers =>
        obtain ⟨hstate, hnone, -⟩ := generate_positions source context values truncated numbers
        rw [hstate]
        exact ⟨by rintro ⟨⟩, hm.ends numbers hinv (hnone h)⟩
  answer := by
    rintro ⟨⟨source, phase⟩, context, values, truncated, chooser⟩ v ⟨-, hinv⟩ ⟨-, hdry⟩ h
    cases phase with
    | created | closed => cases h
    | running =>
      cases chooser with
      | nothing => cases h
      | single constant => exact Constant.settles.answer constant v trivial hdry h
      | positions numbers =>
        obtain ⟨-, -, hsome⟩ := generate_positions source context values truncated numbers
        obtain ⟨n, hn⟩ := hsome v h
        exact hm.answer numbers n hinv hdry hn
  init_dry := by
    rintro context s streams - hdry
    rw [(loads m d unique).init_state hdry.1]
    exact hdry
  generate_dry := by
    rintro ⟨⟨source, phase⟩, context, values, truncated, chooser⟩ ⟨-, hinv⟩ ⟨hphase, hdry⟩
    cases phase with
    | created | closed => exact ⟨hphase, hdry⟩
    | running =>
      cases chooser with
      | nothing => exact ⟨hphase, hdry⟩
      | single constant =>
        exact ⟨hphase, Constant.settles.generate_dry constant trivial hdry⟩
      | positions numbers =>
        rw [(generate_positions source context values truncated numbers).1]
        exact ⟨by rintro ⟨⟩, hm.generate_dry numbers hinv hdry⟩
  close_dry := by
    rintro ⟨wrapped, context, values, truncated, chooser⟩ ⟨-, hinv⟩ ⟨-, hdry⟩
    refine ⟨by rintro ⟨⟩, ?_⟩
    cases chooser with
    | nothing => trivial
    | single constant => exact ⟨by rintro ⟨⟩, hdry.2⟩
    | positions numbers => exact hm.close_dry numbers hinv hdry
  meanwhile_dry := by
    rintro s s' - hdry ⟨⟨-, hwrapped⟩, heq⟩
    rw [heq, hwrapped]
    exact hdry

end Sample

namespace Individual

variable {weight : α → Float}

/-- Something happens to the source of the items. -/
def Meanwhile (meanwhile : σ → σ → Prop) (g g' : Individual σ α) : Prop :=
  g.wrapped.Meanwhile meanwhile g'.wrapped ∧ g' = { g with wrapped := g'.wrapped }

/-- There are items, and a share for each of them. -/
def Shares (sample : WeightedItems α) : Prop :=
  0 < sample.items.size ∧ sample.table.size = sample.items.size

theorem weigh_shares {items : Array α} {sample : Option (WeightedItems α)}
    (h : weigh weight items = .ok sample) : ∀ s ∈ sample, Shares s := by
  unfold weigh at h
  split at h
  · obtain rfl := Except.ok.inj h
    nofun
  · rename_i hitems
    split at h
    · cases h
    · cases h
    · rename_i table htable
      obtain rfl := Except.ok.inj h
      rintro s ⟨⟩
      refine ⟨Nat.pos_of_ne_zero fun hzero => hitems (by simp_all), ?_⟩
      simpa using weightTable_size htable

theorem materialize_inv (hs : m.Keeps invSource) (context : Context) {g : Individual σ α}
    (streams : Streams) (h : invSource g.wrapped.source ∧ ∀ s ∈ g.sample, Shares s) :
    let g' := (materialize m weight context g streams).2.1
    invSource g'.wrapped.source ∧ ∀ s ∈ g'.sample, Shares s := by
  have hread := Machine.readAhead_keeps hs.generate context.settings.cacheSize h.1
  unfold materialize
  rcases hahead : m.readAhead context.settings.cacheSize g.wrapped.source with
    ⟨fault | ⟨items, truncated⟩, source⟩
  all_goals rw [hahead] at hread
  · exact ⟨hread, h.2⟩
  · dsimp only
    rcases hweigh : weigh weight items with fault | sample
    · exact ⟨hread, h.2⟩
    · exact ⟨hread, weigh_shares hweigh⟩

theorem loader_keeps (hs : m.Keeps invSource) :
    (loader m weight).Keeps invSource fun g => ∀ s ∈ g.sample, Shares s where
  place _ _ _ h := h
  load context _ streams hsource h := materialize_inv hs context streams ⟨hsource, h⟩

theorem machine_keeps (hs : m.Keeps invSource) :
    (machine m weight).Keeps
      (fun g => invSource g.wrapped.source ∧ ∀ s ∈ g.sample, Shares s) where
  init := fun context _ streams h =>
    (loads m weight).init_keeps hs (loader_keeps hs) context streams h
  generate := by
    rintro ⟨⟨source, phase⟩, context, sample, rng, truncated⟩ h
    cases phase with
    | created | closed => exact h
    | running => cases sample <;> cases rng <;> exact h
  reset := fun _ streams h => (loads m weight).reset_keeps hs (loader_keeps hs) streams h
  close := fun _ h => ⟨hs.close _ h.1, nofun⟩

theorem settles (hs : m.Settles meanwhile invSource drySource) :
    (machine m weight).Settles (Meanwhile meanwhile)
      (fun g => invSource g.wrapped.source ∧ ∀ s ∈ g.sample, Shares s)
      (fun g => g.wrapped.phase ≠ .created ∧ (g.sample = none ∨ g.rng = none)) where
  toKeeps := machine_keeps hs.toKeeps
  meanwhile_inv := by
    rintro g g' h ⟨⟨hother, -⟩, heq⟩
    exact ⟨hs.meanwhile_inv _ _ h.1 hother, by rw [heq]; exact h.2⟩
  ends := by
    rintro ⟨⟨source, phase⟩, context, sample, rng, truncated⟩ ⟨-, hshares⟩ h
    cases phase with
    | created | closed => cases h
    | running =>
      cases sample with
      | none => exact ⟨nofun, Or.inl rfl⟩
      | some sample =>
        cases rng with
        | none => exact ⟨nofun, Or.inr rfl⟩
        | some rng =>
          obtain ⟨hpos, hsize⟩ := hshares sample rfl
          have hlt := Weighing.lowerBound_lt (hsize ▸ hpos) (rng.unit).1
          have hgone : sample.items[Weighing.lowerBound sample.table (rng.unit).1]? = none :=
            Except.ok.inj h
          rw [Array.getElem?_eq_none_iff, ← hsize] at hgone
          omega
  answer := by
    rintro ⟨⟨source, phase⟩, context, sample, rng, truncated⟩ v - ⟨-, hdry⟩ h
    cases phase with
    | created | closed => cases h
    | running =>
      cases sample with
      | none => cases h
      | some sample =>
        obtain rfl : rng = none := hdry.resolve_left nofun
        cases h
  init_dry := by
    rintro context g streams - hdry
    rw [(loads m weight).init_state hdry.1]
    exact hdry
  generate_dry := by
    rintro ⟨⟨source, phase⟩, context, sample, rng, truncated⟩ - ⟨hphase, hdry⟩
    cases phase with
    | created | closed => exact ⟨hphase, hdry⟩
    | running => cases sample <;> cases rng <;> simp_all [machine, emit, Phase.requireRunning]
  close_dry := fun _ _ _ => ⟨nofun, Or.inl rfl⟩
  meanwhile_dry := by
    rintro g g' - hdry ⟨⟨-, hwrapped⟩, heq⟩
    rw [heq, hwrapped]
    exact hdry

end Individual

end

end SynthData
