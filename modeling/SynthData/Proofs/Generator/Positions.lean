import SynthData.Proofs.Generator.Completeness
import SynthData.Proofs.Generator.Serving

/-!
# Values at chosen positions

A sampler hands out the values of its list at the positions that a distribution makes for
it.  The numbers over the positions of a list are positions of that list, whatever its
length (`Spec.toIndex_lt`), so a sampler never misses its list.

`Sample.Samples` says what is handed out after a list has been read, for lists of each length;
`Sample.pass_samples` says that this holds after every call of `init` or `reset` that succeeds,
whatever was called before.
-/
namespace SynthData

variable {σ ν α : Type}

/-! ## Positions of a list -/

/-- A number over the positions of a list is one of them, however long the list is.  If it is so
long that its last position has no number of 64 bits, the range is cut. -/
theorem Spec.toIndex_lt {n i : Nat} (hpos : 0 < n)
    (hi : (indices n).HasPoint i) : ((indices n).valueAt i).toIndex < n := by
  obtain ⟨v, hvalue, hint⟩ := valueAt_long (by decide) hi
  have hint : v.toInt = 0 + i * 1 := hint
  have hlast : 0 + (i : Int) * 1 ≤ (Int64.ofNat (n - 1)).toInt := hi
  -- the last position may have wrapped around, but not beyond itself
  have hwrapped : 0 ≤ (Int64.ofNat (n - 1)).toInt →
      (Int64.ofNat (n - 1)).toInt ≤ (n - 1 : Nat) := by
    rw [Int64.toInt_ofNat', Int.bmod, show Int64.size = 2 ^ 64 from rfl]
    split <;> omega
  rw [indices, hvalue]
  show v.toInt.toNat < n
  omega

/-- A distribution makes positions of a list, as long as it is one, and none of them is a
failure. -/
structure Distribution.Indexes (d : Distribution ν) (unique : Bool) (inv : Nat → ν → Prop)
    (live : ν → Prop) : Prop where
  made : ∀ n numbers, 0 < n → d.numbers (.indices n) unique = .ok numbers → inv n numbers
  yields : ∀ n, d.machine.Yields (inv n) (fun number => number.toIndex < n)
  serves : d.machine.Serves live

/-- **Strategies make positions**, for lists of any length. -/
theorem Strategy.indexes {s : Strategy} (hs : s.Ranged) (unique : Bool) :
    s.distribution.Indexes unique
      (fun n g => (0 < n ∧ (Spec.indices n).validate = .ok ()) ∧ g.On (.indices n))
      NumberGen.Live where
  made := by
    intro n g hpos hg
    obtain ⟨hv, hmakes⟩ := numbers_makes hs hg
    exact ⟨⟨hpos, hv⟩, hmakes.on⟩
  yields := by
    intro n
    refine .guard fun ⟨hpos, hv⟩ => (NumberGen.machine_yields hv).imp ?_
    rintro _ ⟨i, hi, rfl⟩
    exact Spec.toIndex_lt hpos hi
  serves := NumberGen.serves

namespace Sample

variable {m : Machine σ α} {d : Distribution ν} {unique : Bool} {context : Context}

/-! ## What a sampler hands out -/

/-- **What a sampler hands out once its list has been read.**  `begun` is what beginning a pass
of the source came to: the state in which the source was read and the streams that were left
for the choice. -/
structure Samples (m : Machine σ α) (d : Distribution ν) (unique : Bool) (context : Context)
    (begun : Except Fault Unit × σ × Streams) (s : Sample σ ν α) : Prop where
  /-- The list holds the first values of the source, as many as the cache may hold. -/
  list : ∃ truncated,
    (m.readAhead context.settings.cacheSize begun.2.1).1 = .ok (s.values, truncated)
  nothing : s.values.size = 0 → (machine m d unique).HandsOut s []
  always : ∀ v, s.values = #[v] → unique = false →
    ∀ k, (machine m d unique).answer k s = .ok (some v)
  once : ∀ v, s.values = #[v] → unique = true → (machine m d unique).HandsOut s [v]
  /-- The `k`-th value is the one at the `k`-th position that the numbers of the distribution
  name, and there is none when they have run out. -/
  several : 2 ≤ s.values.size →
    ∃ numbers, d.numbers (.indices s.values.size) unique = .ok numbers ∧
      (d.machine.init context numbers begun.2.2).1 = .ok () ∧
      ∀ k, ∃ number,
        d.machine.answer k (d.machine.init context numbers begun.2.2).2.1 = .ok number ∧
        (∀ n ∈ number, n.toIndex < s.values.size) ∧
        (machine m d unique).answer k s = .ok (number.bind fun n => s.values[n.toIndex]?)

/-- The choice among the values of a list, if there is one, has positions of it in store. -/
def Chosen (inv : Nat → ν → Prop) (live : ν → Prop) (size : Nat) : Chooser ν α → Prop
  | .positions numbers => inv size numbers ∧ live numbers
  | .nothing | .single _ => True

section

variable {inv : Nat → ν → Prop} {live : ν → Prop} {values : Array α} {chooser : Chooser ν α}
  {source : σ} {known : Option Context} {truncated : Bool}

theorem positions_after (numbers : ν) (k : Nat) :
    (machine m d unique).after k
        ⟨⟨source, .running⟩, known, values, truncated, .positions numbers⟩ =
      ⟨⟨source, .running⟩, known, values, truncated, .positions (d.machine.after k numbers)⟩ := by
  induction k with
  | zero => rfl
  | succ k ih =>
    rw [Machine.after, ih]
    exact (generate_positions source known values truncated (d.machine.after k numbers)).1

/-- The value at the next position of the list. -/
theorem positions_generate {numbers : ν} {number : Option Number}
    (h : (d.machine.generate numbers).1 = .ok number)
    (hin : ∀ n ∈ number, n.toIndex < values.size) :
    ((machine m d unique).generate
        ⟨⟨source, .running⟩, known, values, truncated, .positions numbers⟩).1 =
      .ok (number.bind fun n => values[n.toIndex]?) := by
  rcases hgenerate : d.machine.generate numbers with ⟨answer, numbers'⟩
  rw [hgenerate] at h
  obtain rfl : answer = .ok number := h
  cases number with
  | none => simp [machine, emit, Phase.requireRunning, hgenerate]
  | some n =>
    obtain ⟨v, hvalue⟩ : ∃ v, values[n.toIndex]? = some v :=
      ⟨_, Array.getElem?_eq_getElem (hin n rfl)⟩
    simp [machine, emit, Phase.requireRunning, hgenerate, hvalue]

/-- A value that may be repeated is handed out for ever. -/
theorem always_answer (v : α) (emitted : Bool) (k : Nat) :
    (machine m d unique).answer k
      ⟨⟨source, .running⟩, known, values, truncated, .single ⟨⟨v, false, emitted⟩, .running⟩⟩ =
      .ok (some v) := by
  induction k generalizing emitted with
  | zero => rfl
  | succ k ih =>
    rw [Machine.answer_succ]
    exact ih true

/-- A list of several values is handed out by positions. -/
theorem positions_samples (hd : d.Indexes unique inv live) {begun : Except Fault Unit × σ × Streams}
    (hsize : 2 ≤ values.size)
    (hlist : (m.readAhead context.settings.cacheSize begun.2.1).1 = .ok (values, truncated))
    {numbers : ν} (hnumbers : d.numbers (.indices values.size) unique = .ok numbers)
    (hinit : (d.machine.init context numbers begun.2.2).1 = .ok ()) (source : σ)
    (known : Option Context) :
    let numbers' := (d.machine.init context numbers begun.2.2).2.1
    Samples m d unique context begun
        ⟨⟨source, .running⟩, known, values, truncated, .positions numbers'⟩ ∧
      inv values.size numbers' ∧ live numbers' := by
  intro numbers'
  have hyields := hd.yields values.size
  have hinv : inv values.size numbers' :=
    hyields.init context numbers begun.2.2 (hd.made values.size numbers (by omega) hnumbers)
  have hlive : live numbers' := hd.serves.init context numbers begun.2.2 hinit
  refine ⟨⟨⟨truncated, hlist⟩, ?nothing, ?always, ?once, ?several⟩, hinv, hlive⟩
  case nothing =>
    intro (hnone : values.size = 0)
    omega
  case always | once =>
    intro v (hv : values = #[v])
    rw [hv] at hsize
    exact absurd hsize (by simp)
  case several =>
    refine fun _ => ⟨numbers, hnumbers, hinit, fun k => ?_⟩
    obtain ⟨number, hanswer⟩ := hd.serves.answer hlive k
    have hin : ∀ n ∈ number, n.toIndex < values.size := by
      rintro n rfl
      exact hyields.good _ n (hyields.toKeeps.after hinv k) hanswer
    refine ⟨number, hanswer, hin, ?_⟩
    rw [Machine.answer, positions_after]
    exact positions_generate hanswer hin

/-- **A choice that has been prepared** is made as the length of the list says. -/
theorem choose_samples (hd : d.Indexes unique inv live) {streams' : Streams}
    {begun : Except Fault Unit × σ × Streams}
    (h : choose d unique context values begun.2.2 = (.ok chooser, streams'))
    (hlist : (m.readAhead context.settings.cacheSize begun.2.1).1 = .ok (values, truncated)) :
    Samples m d unique context begun ⟨⟨source, .running⟩, known, values, truncated, chooser⟩ ∧
      Chosen inv live values.size chooser := by
  obtain ⟨list⟩ := values
  rcases list with _ | ⟨a, _ | ⟨b, list⟩⟩
  · obtain rfl : .nothing = chooser := Except.ok.inj (congrArg Prod.fst h)
    exact
      ⟨{ list := ⟨truncated, hlist⟩
         nothing := fun _ => nothing_handsOut
         always := fun v hv => by cases hv
         once := fun v hv => by cases hv
         several := fun hsize => absurd hsize (by simp) }, trivial⟩
  · obtain rfl : .single ⟨⟨a, unique, false⟩, .running⟩ = chooser := by
      cases unique with
      | true | false => exact Except.ok.inj (congrArg Prod.fst h)
    exact
      ⟨{ list := ⟨truncated, hlist⟩
         nothing := fun hsize => absurd hsize (by simp)
         always := by
          rintro v hv rfl
          obtain rfl : a = v := by simpa using hv
          exact always_answer a false
         once := by
          rintro v hv rfl
          obtain rfl : a = v := by simpa using hv
          exact single_handsOut a
         several := fun hsize => absurd hsize (by simp) }, trivial⟩
  · generalize hvalues : Array.mk (a :: b :: list) = values at h hlist
    have hsize : 2 ≤ values.size := by simp [← hvalues]
    simp only [choose, show values.toList = a :: b :: list by rw [← hvalues]] at h
    rcases hnumbers : d.numbers (.indices values.size) unique with fault | numbers
    · simp [hnumbers] at h
    · rcases hinit : d.machine.init context numbers begun.2.2 with ⟨fault | _, numbers', streams''⟩
      · simp [hnumbers, hinit] at h
      · simp only [hnumbers, hinit] at h
        obtain rfl := Except.ok.inj (congrArg Prod.fst h)
        have hsamples :=
          positions_samples hd hsize hlist hnumbers (by rw [hinit]) source known
        rwa [hinit] at hsamples

/-! ## Reading the list -/

/-- What is known of a sampler: positions of its list are in store as long as it is not closed,
and it knows its context once it runs. -/
structure Ready (inv : Nat → ν → Prop) (live : ν → Prop) (s : Sample σ ν α) : Prop where
  chosen : s.wrapped.phase ≠ .closed → Chosen inv live s.values.size s.chooser
  context : s.wrapped.phase = .running → ∃ context, s.context = some context

theorem ready_new (source : σ) : Ready inv live (new source : Sample σ ν α) :=
  ⟨fun _ => trivial, nofun⟩

variable {s : Sample σ ν α} {streams : Streams}

/-- Reading fails and leaves the list as it was, or it puts a list in place. -/
theorem materialize_samples (hd : d.Indexes unique inv live)
    (begun : Except Fault Unit × σ × Streams) (hs : s.wrapped = ⟨begun.2.1, .running⟩)
    (hcontext : s.context = some context) (hchosen : Chosen inv live s.values.size s.chooser) :
    let result := materialize m d unique context s begun.2.2
    Ready inv live result.2.1 ∧
      (result.1 = .ok () → Samples m d unique context begun result.2.1) := by
  intro result
  obtain ⟨_, _, values, truncated, chooser⟩ := s
  obtain rfl : _ = Wrapped.mk begun.2.1 .running := hs
  obtain rfl : _ = some context := hcontext
  rcases hread : m.readAhead context.settings.cacheSize begun.2.1 with
    ⟨fault | ⟨values', truncated'⟩, source'⟩
  · have hresult : result = (.error fault,
        ⟨⟨source', .running⟩, some context, values, truncated, chooser⟩, begun.2.2) := by
      simp only [result, materialize, hread]
    rw [hresult]
    exact ⟨⟨fun _ => hchosen, fun _ => ⟨context, rfl⟩⟩, by simp⟩
  · rcases hchoose : choose d unique context values' begun.2.2 with ⟨fault | chooser', streams'⟩
    · have hresult : result = (.error fault,
          ⟨⟨source', .running⟩, some context, values, truncated, chooser⟩, streams') := by
        simp only [result, materialize, hread, hchoose]
      rw [hresult]
      exact ⟨⟨fun _ => hchosen, fun _ => ⟨context, rfl⟩⟩, by simp⟩
    · have hresult : result = (.ok (),
          ⟨⟨source', .running⟩, some context, values', truncated', chooser'⟩, streams') := by
        simp only [result, materialize, hread, hchoose]
      rw [hresult]
      obtain ⟨hsamples, hchosen⟩ := choose_samples (m := m) hd hchoose (by rw [hread])
      exact ⟨⟨fun _ => hchosen, fun _ => ⟨context, rfl⟩⟩, fun _ => hsamples⟩

/-- **A sampler that is initialized** reads the source at the beginning of its first pass. -/
theorem init_samples (hd : d.Indexes unique inv live) (hs : Ready inv live s) (context : Context)
    (streams : Streams) :
    let result := init m d unique context s streams
    Ready inv live result.2.1 ∧ (result.1 = .ok () →
      Samples m d unique context (m.init context s.wrapped.source streams) result.2.1) := by
  intro result
  by_cases hcreated : s.wrapped.phase = .created
  · have hchosen := hs.chosen (by rw [hcreated]; nofun)
    rcases hsource : (m.init context s.wrapped.source streams).1 with fault | _
    · have hresult : result = _ := (loads m d unique).init_failed hcreated hsource
      rw [hresult]
      exact ⟨⟨fun _ => hchosen, nofun⟩, nofun⟩
    · have hresult : result = _ := (loads m d unique).init_loads hcreated hsource
      rw [hresult]
      exact materialize_samples hd (m.init context s.wrapped.source streams) rfl rfl hchosen
  · obtain ⟨fault, hresult, -⟩ := (loads m d unique).init_refused hcreated context streams
    have hresult : result = (.error fault, s, streams) := hresult
    rw [hresult]
    exact ⟨hs, nofun⟩

/-- **A running sampler that is reset** reads the source anew, at the beginning of its next
pass. -/
theorem reset_samples (hd : d.Indexes unique inv live) (hs : Ready inv live s)
    (hrunning : s.wrapped.phase = .running) (streams : Streams) :
    let result := (machine m d unique).reset s streams
    Ready inv live result.2.1 ∧ (result.1 = .ok () → ∃ context, s.context = some context ∧
      Samples m d unique context (m.reset s.wrapped.source streams) result.2.1) := by
  intro result
  obtain ⟨context, hcontext⟩ := hs.context hrunning
  have hchosen := hs.chosen (by rw [hrunning]; nofun)
  rcases hsource : (m.reset s.wrapped.source streams).1 with fault | _
  · have hresult : result = _ := (loads m d unique).reset_failed hrunning hsource
    rw [hresult]
    exact ⟨⟨fun _ => hchosen, fun _ => ⟨context, hcontext⟩⟩, nofun⟩
  · have hresult : result = _ := (loads m d unique).reset_loads hrunning hcontext hsource
    rw [hresult]
    obtain ⟨hready, hsamples⟩ := materialize_samples (s := { s with
      wrapped := ⟨(m.reset s.wrapped.source streams).2.1, .running⟩, context := some context })
      hd (m.reset s.wrapped.source streams) rfl rfl hchosen
    exact ⟨hready, fun hok => ⟨context, hcontext, hsamples hok⟩⟩

/-- **No call forgets the choice.** -/
theorem machine_keeps_ready (m : Machine σ α) (hd : d.Indexes unique inv live) :
    (machine m d unique).Keeps (Ready inv live) where
  init := fun context _ streams hs => (init_samples hd hs context streams).1
  generate := by
    rintro ⟨⟨source, phase⟩, known, values, truncated, chooser⟩ hs
    cases phase with
    | created | closed => exact hs
    | running =>
      cases chooser with
      | nothing | single _ => exact ⟨fun _ => trivial, hs.context⟩
      | positions numbers =>
        obtain ⟨hinv, hlive⟩ := hs.chosen nofun
        rw [(generate_positions source known values truncated numbers).1]
        exact ⟨fun _ => ⟨(hd.yields _).generate numbers hinv, hd.serves.generate numbers hlive⟩,
          hs.context⟩
  reset := by
    rintro ⟨⟨source, phase⟩, known, values, truncated, chooser⟩ streams hs
    cases phase with
    | created => exact (init_samples hd hs _ _).1
    | running => exact (reset_samples hd hs rfl streams).1
    | closed => exact hs
  close := fun _ _ => ⟨fun h => absurd rfl h, nofun⟩

/-- A sampler does not miss its list. -/
theorem generate_inside (hd : d.Indexes unique inv live) (hs : Ready inv live s) (name : String)
    (index size : Nat) :
    ((machine m d unique).generate s).1 ≠ .error (.positionOutside name index size) := by
  obtain ⟨⟨source, phase⟩, known, values, truncated, chooser⟩ := s
  cases phase with
  | created | closed => nofun
  | running =>
    cases chooser with
    | nothing => nofun
    | single constant =>
      obtain ⟨constant, phase⟩ := constant
      cases phase with
      | created | running | closed => nofun
    | positions numbers =>
      obtain ⟨hinv, hlive⟩ := hs.chosen nofun
      obtain ⟨number, hnumber⟩ := hd.serves.answers numbers hlive
      have hin : ∀ n ∈ number, n.toIndex < values.size := by
        rintro n rfl
        exact (hd.yields _).good numbers n hinv hnumber
      rw [positions_generate hnumber hin]
      nofun

end

/-- **A sampler hands out the values at the positions of its strategy.**  After any history of
calls, on any source and with any streams, it never misses its list; and a call of `init` or
`reset` that succeeds leaves a sampler whose values are those at the positions that the numbers
of the strategy name, one after the other (`Samples`).  A sampler that is reset before it was
initialized is initialized with a context of its own. -/
theorem pass_samples {s : Strategy} (hs : s.Ranged) (m : Machine σ α)
    (unique : Bool) (source : σ) (streams : Streams) (calls : List Machine.Call) :
    let sampler := machine m s.distribution unique
    let r := sampler.run calls (.start (.new source) streams)
    (∀ name index size, (sampler.generate r.state).1 ≠ .error (.positionOutside name index size)) ∧
      (∀ context, (sampler.init context r.state r.streams).1 = .ok () →
        Samples m s.distribution unique context (m.init context r.state.wrapped.source r.streams)
          (sampler.init context r.state r.streams).2.1) ∧
      ((sampler.reset r.state r.streams).1 = .ok () → r.state.wrapped.phase = .running →
        ∃ context, r.state.context = some context ∧
          Samples m s.distribution unique context (m.reset r.state.wrapped.source r.streams)
            (sampler.reset r.state r.streams).2.1) ∧
      ((sampler.reset r.state r.streams).1 = .ok () → r.state.wrapped.phase = .created →
        Samples m s.distribution unique r.streams.defaultContext.1
          (m.init r.streams.defaultContext.1 r.state.wrapped.source r.streams.defaultContext.2)
          (sampler.reset r.state r.streams).2.1) := by
  intro sampler r
  have hd := Strategy.indexes hs unique
  have hready : Ready _ NumberGen.Live r.state :=
    (machine_keeps_ready m hd).run (r := .start (.new source) streams) (ready_new source) calls
  refine ⟨generate_inside hd hready, fun context => (init_samples hd hready context _).2,
    fun hok hrunning => (reset_samples hd hready hrunning _).2 hok, fun hok hcreated => ?_⟩
  have hreset := (loads m s.distribution unique).reset_created hcreated r.streams
  rw [hreset] at hok ⊢
  exact (init_samples hd hready _ _).2 hok

/-- Three letters, of which those at both ends are chosen in turn. -/
def endLetters : Sample (Leaf (Listed Char)) NumberGen Char := .new (Listed.new #['a', 'b', 'c'])

theorem pass_samples_endLetters :
    let sampler := machine Listed.machine Strategy.wedge.distribution false
    let r := sampler.run [.init ⟨{}, 0⟩, .generate, .generate]
      (.start endLetters (.start fun _ => .ofSeed 0))
    r.pass = ['c', 'a'] ∧ (sampler.reset r.state r.streams).1 = .ok () ∧
      ∃ context, r.state.context = some context ∧
        Samples Listed.machine Strategy.wedge.distribution false context
          (Listed.machine.reset r.state.wrapped.source r.streams)
          (sampler.reset r.state r.streams).2.1 :=
  ⟨by rfl, by rfl,
    (pass_samples (fun _ h => by cases h) Listed.machine false (Listed.new #['a', 'b', 'c'])
      (.start fun _ => .ofSeed 0) [.init ⟨{}, 0⟩, .generate, .generate]).2.2.1 (by rfl) (by rfl)⟩

end Sample
end SynthData
