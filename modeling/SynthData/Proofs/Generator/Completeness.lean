import Mathlib.Algebra.Group.Nat.Defs
import SynthData.Proofs.Generator.Expand
import SynthData.Proofs.Generator.Loader
import SynthData.Proofs.Generator.Pass
import SynthData.Proofs.Generator.Unique

/-!
# Generators that hand out all values of their source

A list is handed out in its order.  Over a source whose passes are full, an expander
with unique values and a sampler without repetitions hand out the same values in
another order, and a filter for values that were there before hands out each of them
once.  None of them fails, as long as the sampler may read the whole source and the
filter does not meet too many repeated values.

What a sampler needs of its distribution is `Distribution.Arranges`: it puts the
positions of any list in some order.
-/
namespace SynthData

variable {σ ν α : Type}

/-! ## Lists -/

namespace Listed

theorem generate_some {values : Array α} {position : Nat} {v : α}
    (h : values[position]? = some v) :
    machine.generate ⟨⟨values, position⟩, .running⟩ =
      (.ok (some v), ⟨⟨values, position + 1⟩, .running⟩) := by
  simp [machine, Leaf.machine, Phase.requireRunning, next, h]

theorem generate_none {values : Array α} {position : Nat} (h : values[position]? = none) :
    machine.generate ⟨⟨values, position⟩, .running⟩ =
      (.ok none, ⟨⟨values, position⟩, .running⟩) := by
  simp only [machine, Leaf.machine, Phase.requireRunning, next, h]

theorem handsOut {values : Array α} {position : Nat} {rest : List α}
    (h : values.toList.drop position = rest) :
    machine.HandsOut ⟨⟨values, position⟩, .running⟩ rest := by
  induction rest generalizing position with
  | nil =>
    have hnone : values[position]? = none :=
      Array.getElem?_eq_none (by simpa using h)
    refine .nil (· = ⟨⟨values, position⟩, .running⟩) ?_ rfl
    rintro _ rfl
    rw [generate_none hnone]
    exact ⟨rfl, rfl⟩
  | cons v rest ih =>
    have hv : values[position]? = some v := by
      rw [← Array.getElem?_toList, ← List.head?_drop, h, List.head?_cons]
    refine .cons (by rw [generate_some hv]) ?_
    rw [generate_some hv]
    exact ih (by rw [← List.tail_drop, h, List.tail_cons])

/-- **A list is handed out in every pass.** -/
theorem supplies (list : List α) (context : Context) :
    machine.Supplies context (· = new list.toArray)
      (fun leaf => leaf.phase = .running ∧ leaf.cursor.values = list.toArray) (· = list) where
  init := by
    rintro _ streams rfl
    exact ⟨rfl, ⟨rfl, rfl⟩, list, rfl, handsOut List.drop_zero⟩
  generate := by
    rintro ⟨⟨_, position⟩, _⟩ ⟨rfl, rfl⟩
    cases h : list.toArray[position]? with
    | none => rw [generate_none h]; exact ⟨rfl, rfl⟩
    | some v => rw [generate_some h]; exact ⟨rfl, rfl⟩
  reset := by
    rintro ⟨⟨_, position⟩, _⟩ streams ⟨rfl, rfl⟩
    exact ⟨rfl, ⟨rfl, rfl⟩, list, rfl, handsOut List.drop_zero⟩

end Listed

section

variable {m : Machine σ α} {context : Context} {fresh live : σ → Prop} {full : List α → Prop}

/-! ## Sources -/

namespace Wrapped

variable {w : Wrapped σ}

/-- A new owner of a fresh source begins a pass of it. -/
theorem init_delivers (owner : String) (hm : m.Supplies context fresh live full) {s : σ}
    (hs : fresh s) (streams : Streams) :
    ∃ s' streams', (new s).init owner m context streams = (.ok (), ⟨s', .running⟩, streams') ∧
      live s' ∧ ∃ values, full values ∧ m.HandsOut s' values := by
  obtain ⟨s', streams', hinit, hpass⟩ := (hm.init s streams hs).exists_eq
  exact ⟨s', streams', by simp [init, new, Phase.requireCreated, hinit], hpass⟩

theorem reset_delivers (owner : String) (hm : m.Supplies context fresh live full)
    (hw : w.phase = .running) (hs : live w.source) (streams : Streams) :
    ∃ s' streams', w.reset owner m streams = (.ok false, ⟨s', .running⟩, streams') ∧
      live s' ∧ ∃ values, full values ∧ m.HandsOut s' values := by
  obtain ⟨s', streams', hreset, hpass⟩ := (hm.reset w.source streams hs).exists_eq
  exact ⟨s', streams', by simp [reset, hw, hreset], hpass⟩

end Wrapped

/-! ## Random order through a pool -/

namespace Expand

variable {quota : Float} {e : Expand σ α}

/-- What is left in the source of an expander. -/
structure Left (m : Machine σ α) (depleted : Bool) (s : σ) (rest : List α) : Prop where
  handsOut : m.HandsOut s rest
  depleted : depleted = true → rest = []

/-- An expander in the course of a pass: it runs, it can draw, and its pool has
room. -/
structure Running (live : σ → Prop) (e : Expand σ α) : Prop where
  phase : e.wrapped.phase = .running
  source : live e.wrapped.source
  drawing : ∃ rng, e.rng = some rng
  room : ∃ capacity, 0 < capacity ∧ e.capacity = some capacity

/-- The values that are still to come: those in the pool and those left in the source. -/
structure Holds (m : Machine σ α) (live : σ → Prop) (e : Expand σ α) (values : List α) : Prop
    extends Running live e where
  left : ∃ rest, Left m e.depleted e.wrapped.source rest ∧ e.pool.toList ++ rest = values

/-- Filling moves values from the source to the pool, in their order. -/
theorem fill_left (hlive : ∀ s, live s → live (m.generate s).2) {depleted : Bool} {s : σ}
    {rest : List α} (hs : live s) (h : Left m depleted s rest) (room : Nat) (pool : Array α) :
    ∃ depleted' s', fill m room pool depleted ⟨s, .running⟩ =
        (.ok (), pool ++ (rest.take room).toArray, depleted', ⟨s', .running⟩) ∧
      live s' ∧ Left m depleted' s' (rest.drop room) := by
  induction room generalizing pool depleted s rest with
  | zero => exact ⟨depleted, s, by simp [fill], hs, h⟩
  | succ room ih =>
    cases depleted with
    | true =>
      obtain rfl := h.depleted rfl
      exact ⟨true, s, by simp [fill, pull], hs, h⟩
    | false =>
      have hnext := hlive s hs
      cases rest with
      | nil =>
        obtain ⟨s', hgenerate, hleft⟩ := h.handsOut.ended
        rw [hgenerate] at hnext
        exact ⟨true, s', by simp [fill, pull, hgenerate], hnext, hleft, fun _ => rfl⟩
      | cons v rest =>
        obtain ⟨s', hgenerate, hleft⟩ := h.handsOut.head
        rw [hgenerate] at hnext
        have hleft : Left m false s' rest := ⟨hleft, by simp⟩
        obtain ⟨depleted', s'', hfill, hlive', hleft'⟩ := ih hnext hleft (pool.push v)
        refine ⟨depleted', s'', ?_, hlive', hleft'⟩
        simp [fill, pull, hgenerate, hfill]

theorem emit_of_refill_empty {wrapped : Wrapped σ} {capacity : Option Nat} {depleted : Bool}
    {rng : Option Rng} (h : refill m e = (.ok (), ⟨wrapped, #[], capacity, depleted, rng⟩)) :
    emit m true quota e = (.ok none, ⟨wrapped, #[], capacity, depleted, rng⟩) := by
  rw [emit, h]
  rfl

theorem emit_of_refill (quota : Float) {wrapped : Wrapped σ} {pool : Array α}
    {capacity : Option Nat} {depleted : Bool} {rng : Rng}
    (h : refill m e = (.ok (), ⟨wrapped, pool, capacity, depleted, some rng⟩))
    (hpool : pool ≠ #[]) :
    ∃ index v rng', pool[index]? = some v ∧ emit m true quota e =
      (.ok (some v), ⟨wrapped, takeOut pool index, capacity, depleted, some rng'⟩) := by
  have hsize : 0 < pool.size := Array.size_pos_iff.mpr hpool
  have hindex : (rng.below pool.size).1 < pool.size := rng.below_lt hsize
  have hempty : pool.isEmpty = false := Array.isEmpty_eq_false_iff.mpr hpool
  refine ⟨_, _, (rng.below pool.size).2, Array.getElem?_eq_getElem hindex, ?_⟩
  rw [emit, h]
  simp [hempty, handOut, hindex]

/-- **A value that is still to come is handed out**, as long as there is one; that value
and nothing else is lost. -/
theorem emit_holds (quota : Float) (hlive : ∀ s, live s → live (m.generate s).2) {values : List α}
    (he : Holds m live e values) :
    (values = [] ∧ (emit m true quota e).1 = .ok none ∧ Holds m live (emit m true quota e).2 []) ∨
      ∃ v rest, (emit m true quota e).1 = .ok (some v) ∧
        Holds m live (emit m true quota e).2 rest ∧ (v :: rest).Perm values := by
  obtain ⟨⟨s, _⟩, pool, _, depleted, _⟩ := e
  obtain ⟨⟨rfl, hs, ⟨rng, rfl⟩, ⟨capacity, hcapacity, rfl⟩⟩, rest, hrest, rfl⟩ := he
  obtain ⟨depleted', s', hfill, hs', hleft⟩ :=
    fill_left hlive hs hrest (capacity - pool.size) pool
  have hrefill : refill m ⟨⟨s, .running⟩, pool, some capacity, depleted, some rng⟩ =
      (.ok (), ⟨⟨s', .running⟩, pool ++ (rest.take (capacity - pool.size)).toArray, some capacity,
        depleted', some rng⟩) := by
    simp [refill, hfill]
  have hsplit := List.take_append_drop (capacity - pool.size) rest
  by_cases hempty : pool ++ (rest.take (capacity - pool.size)).toArray = #[]
  · -- an empty pool has room for a value
    obtain ⟨rfl, htake⟩ := Array.append_eq_empty_iff.mp hempty
    obtain rfl : rest = [] := by
      rcases List.take_eq_nil_iff.mp (List.toArray_eq_iff.mp htake) with hroom | hrest
      · rw [Array.size_empty] at hroom
        omega
      · exact hrest
    rw [hempty] at hrefill
    rw [emit_of_refill_empty hrefill]
    exact Or.inl ⟨rfl, rfl, ⟨rfl, hs', ⟨rng, rfl⟩, capacity, hcapacity, rfl⟩, _, hleft, by simp⟩
  · obtain ⟨index, v, rng', hv, hemit⟩ := emit_of_refill quota hrefill hempty
    rw [hemit]
    refine Or.inr ⟨v, _, rfl,
      ⟨⟨rfl, hs', ⟨rng', rfl⟩, capacity, hcapacity, rfl⟩, _, hleft, rfl⟩, ?_⟩
    have hperm := (takeOut_perm hv).append_right (rest.drop (capacity - pool.size))
    simpa [hsplit] using hperm

theorem generate_running (he : Running live e) :
    (machine m true quota).generate e = emit m true quota e := by
  simp [machine, he.phase, Phase.requireRunning]

/-- **All values that are still to come are handed out**, in some order. -/
theorem Holds.handsOut (quota : Float) (hlive : ∀ s, live s → live (m.generate s).2)
    {values : List α} (he : Holds m live e values) :
    ∃ order, (machine m true quota).HandsOut e order ∧ order.Perm values := by
  induction hlength : values.length generalizing e values with
  | zero =>
    obtain rfl := List.eq_nil_of_length_eq_zero hlength
    refine ⟨[], .nil (Holds m live · []) (fun e he => ?_) he, .nil⟩
    rw [generate_running he.toRunning]
    rcases emit_holds quota hlive he with ⟨-, hanswer, hnext⟩ | ⟨v, rest, -, -, hperm⟩
    · exact ⟨hanswer, hnext⟩
    · exact absurd hperm.eq_nil nofun
  | succ n ih =>
    rcases emit_holds quota hlive he with
      ⟨rfl, -, -⟩ | ⟨v, rest, hanswer, hnext, hperm⟩
    · cases hlength
    · rw [← generate_running he.toRunning] at hanswer hnext
      obtain ⟨order, horder, hrest⟩ := ih hnext (by
        have := hperm.length_eq
        rw [List.length_cons] at this
        omega)
      exact ⟨v :: order, .cons hanswer horder, (hrest.cons v).trans hperm⟩

/-- An empty pool with room over a source at its beginning. -/
theorem begins_delivers (hlive : ∀ s, live s → live (m.generate s).2) {s : σ} {values : List α}
    (hs : live s) (h : m.HandsOut s values) {capacity : Nat} (hcapacity : 0 < capacity) (rng : Rng)
    (streams : Streams) :
    (machine m true quota).Delivers (fun e => ∃ values, Holds m live e values) (·.Perm values)
      (.ok (), ⟨⟨s, .running⟩, #[], some capacity, false, some rng⟩, streams) := by
  have hholds : Holds m live ⟨⟨s, .running⟩, #[], some capacity, false, some rng⟩ values :=
    ⟨⟨rfl, hs, ⟨rng, rfl⟩, capacity, hcapacity, rfl⟩, values, ⟨h, nofun⟩, rfl⟩
  obtain ⟨order, horder, hperm⟩ := hholds.handsOut quota hlive
  exact ⟨rfl, ⟨values, hholds⟩, order, hperm, horder⟩

/-- **An expander with unique values hands out what its source does**, in some order. -/
theorem supplies (hm : m.Supplies context fresh live full) (capacity : Option Nat) (quota : Float) :
    (machine m true quota).Supplies context (fun e => ∃ s, fresh s ∧ e = new s capacity)
      (fun e => ∃ values, Holds m live e values)
      (fun order => ∃ values, full values ∧ order.Perm values) where
  init := by
    rintro _ streams ⟨s, hs, rfl⟩
    obtain ⟨s', streams', hinit, hs', values, hfull, hvalues⟩ :=
      Wrapped.init_delivers owner hm hs streams
    have hroom : ∃ c, 0 < c ∧ capacityFrom context (capacity.map (max 1)) = some c := by
      cases capacity with
      | none => exact ⟨_, Nat.le_max_left 1 _, rfl⟩
      | some c => exact ⟨_, Nat.le_max_left 1 c, rfl⟩
    obtain ⟨c, hc, hcapacity⟩ := hroom
    have hresult : (machine m true quota).init context (new s capacity) streams =
        (.ok (), ⟨⟨s', .running⟩, #[], some c, false, some (streams'.issue context).1⟩,
          (streams'.issue context).2) := by
      simp [machine, new, hinit, hcapacity]
    rw [hresult]
    exact (begins_delivers hm.generate hs' hvalues hc _ _).imp
      fun _ hperm => ⟨values, hfull, hperm⟩
  generate := by
    rintro e ⟨values, he⟩
    rw [generate_running he.toRunning]
    rcases emit_holds quota hm.generate he with ⟨-, -, hnext⟩ | ⟨_, _, -, hnext, -⟩
    · exact ⟨_, hnext⟩
    · exact ⟨_, hnext⟩
  reset := by
    rintro ⟨wrapped, pool, capacity, depleted, rng⟩ streams ⟨_, he⟩
    obtain ⟨c, hc, rfl⟩ := he.room
    obtain ⟨rng, rfl⟩ := he.drawing
    obtain ⟨s', streams', hreset, hs', values, hfull, hvalues⟩ :=
      Wrapped.reset_delivers owner hm he.phase he.source streams
    have hresult : (machine m true quota).reset ⟨wrapped, pool, some c, depleted, some rng⟩
        streams = (.ok (), ⟨⟨s', .running⟩, #[], some c, false, some rng⟩, streams') := by
      simp only [machine, hreset]
    rw [hresult]
    exact (begins_delivers hm.generate hs' hvalues hc _ _).imp
      fun _ hperm => ⟨values, hfull, hperm⟩

end Expand

/-! ## Positions -/

/-- Without repetitions, the distribution puts the positions of a list in some order,
whatever it draws. -/
def Distribution.Arranges (d : Distribution ν) (context : Context) : Prop :=
  ∀ n, 1 < n → n ≤ 2 ^ 63 → ∃ numbers, d.numbers (.indices n) true = .ok numbers ∧
    ∀ streams, (d.machine.init context numbers streams).1 = .ok () ∧
      ∃ order, d.machine.HandsOut (d.machine.init context numbers streams).2.1 order ∧
        (order.map Number.toIndex).Perm (List.range n)

/-- The members at all positions are those of the list. -/
theorem filterMap_range (list : List α) :
    (List.range list.length).filterMap (list[·]?) = list := by
  induction list with
  | nil => rfl
  | cons a list ih =>
    rw [List.length_cons, List.range_succ_eq_map, List.filterMap_cons, List.filterMap_map]
    exact congrArg (a :: ·) ih

theorem Constant.single_handsOut (value : α) :
    machine.HandsOut ⟨⟨value, true, false⟩, .running⟩ [value] := by
  refine .cons rfl (.nil (· = ⟨⟨value, true, true⟩, .running⟩) ?_ rfl)
  rintro _ rfl
  exact ⟨rfl, rfl⟩

namespace Sample

variable {d : Distribution ν} {unique : Bool} {source : σ} {known : Option Context}
  {values : Array α} {truncated : Bool}

theorem nothing_handsOut :
    (machine m d unique).HandsOut
      ⟨⟨source, .running⟩, known, values, truncated, .nothing⟩ [] := by
  refine .nil (· = ⟨⟨source, .running⟩, known, values, truncated, .nothing⟩) ?_ rfl
  rintro _ rfl
  exact ⟨rfl, rfl⟩

theorem single_handsOut (value : α) :
    (machine m d unique).HandsOut
      ⟨⟨source, .running⟩, known, values, truncated, .single ⟨⟨value, true, false⟩, .running⟩⟩
      [value] := by
  let choosing (constant : Leaf (Constant α)) : Sample σ ν α :=
    ⟨⟨source, .running⟩, known, values, truncated, .single constant⟩
  exact (Constant.single_handsOut value).passed_on choosing fun _ => rfl

/-- A running sampler with a choice of positions asks for one of them. -/
theorem generate_positions (source : σ) (context : Option Context) (values : Array α)
    (truncated : Bool) (numbers : ν) :
    let s : Sample σ ν α := ⟨⟨source, .running⟩, context, values, truncated, .positions numbers⟩
    ((machine m d unique).generate s).2 =
        { s with chooser := .positions (d.machine.generate numbers).2 } ∧
      (((machine m d unique).generate s).1 = .ok none →
        (d.machine.generate numbers).1 = .ok none) ∧
      ∀ v, ((machine m d unique).generate s).1 = .ok (some v) →
        ∃ n, (d.machine.generate numbers).1 = .ok (some n) := by
  rcases hgenerate : d.machine.generate numbers with ⟨fault | _ | n, numbers'⟩
  · simp [machine, emit, Phase.requireRunning, hgenerate]
  · simp [machine, emit, Phase.requireRunning, hgenerate]
  · cases hvalue : values[n.toIndex]? with
    | none => simp [machine, emit, Phase.requireRunning, hgenerate, hvalue]
    | some v => simp [machine, emit, Phase.requireRunning, hgenerate, hvalue]

/-- The values at the positions that a distribution chooses are handed out, as long as these
are positions of the list. -/
theorem positions_handsOut {numbers : ν} {order : List Number}
    (h : d.machine.HandsOut numbers order) (hin : ∀ n ∈ order, n.toIndex < values.size) :
    (machine m d true).HandsOut
      ⟨⟨source, .running⟩, known, values, truncated, .positions numbers⟩
      (order.filterMap fun n => values.toList[n.toIndex]?) := by
  induction order generalizing numbers with
  | nil =>
    refine .nil (fun s => ∃ numbers, d.machine.HandsOut numbers [] ∧
      s = ⟨⟨source, .running⟩, known, values, truncated, .positions numbers⟩) ?_ ⟨_, h, rfl⟩
    rintro _ ⟨numbers, h, rfl⟩
    obtain ⟨numbers', hgenerate, hnext⟩ := h.ended
    have hemit : (machine m d true).generate
        ⟨⟨source, .running⟩, known, values, truncated, .positions numbers⟩ =
        (.ok none, ⟨⟨source, .running⟩, known, values, truncated, .positions numbers'⟩) := by
      simp [machine, emit, Phase.requireRunning, hgenerate]
    rw [hemit]
    exact ⟨rfl, _, hnext, rfl⟩
  | cons n order ih =>
    obtain ⟨numbers', hgenerate, hnext⟩ := h.head
    obtain ⟨v, hv⟩ : ∃ v, values[n.toIndex]? = some v :=
      ⟨_, Array.getElem?_eq_getElem (hin n List.mem_cons_self)⟩
    have hemit : (machine m d true).generate
        ⟨⟨source, .running⟩, known, values, truncated, .positions numbers⟩ =
        (.ok (some v), ⟨⟨source, .running⟩, known, values, truncated, .positions numbers'⟩) := by
      simp [machine, emit, Phase.requireRunning, hgenerate, hv]
    rw [List.filterMap_cons, Array.getElem?_toList, hv]
    refine .cons (by rw [hemit]) ?_
    rw [hemit]
    exact ih hnext fun n hn => hin n (List.mem_cons_of_mem _ hn)

/-- **The choice among the values of a list** gives all of them, in some order. -/
theorem choose_handsOut (m : Machine σ α) (hd : d.Arranges context) (values : Array α)
    (hsize : values.size ≤ 2 ^ 63) (streams : Streams) :
    ∃ chooser streams', choose d true context values streams = (.ok chooser, streams') ∧
      ∃ order, order.Perm values.toList ∧ ∀ source known truncated,
        (machine m d true).HandsOut ⟨⟨source, .running⟩, known, values, truncated, chooser⟩
          order := by
  obtain ⟨list⟩ := values
  rcases list with _ | ⟨a, _ | ⟨b, list⟩⟩
  · exact ⟨.nothing, streams, rfl, [], .nil, fun _ _ _ => nothing_handsOut⟩
  · exact ⟨.single ⟨⟨a, true, false⟩, .running⟩, streams, rfl, [a], .refl _, fun _ _ _ =>
      single_handsOut a⟩
  · obtain ⟨numbers, hnumbers, hd⟩ :=
      hd (a :: b :: list).length (Nat.one_lt_succ_succ list.length) hsize
    obtain ⟨hinit, order, horder, hperm⟩ := hd streams
    rcases hresult : d.machine.init context numbers streams with ⟨answer, numbers', streams'⟩
    rw [hresult] at hinit horder
    obtain rfl : answer = .ok () := hinit
    refine ⟨.positions numbers', streams', ?_, _, ?_, fun _ _ _ => positions_handsOut horder ?_⟩
    · have hnumbers : d.numbers (.indices (Array.mk (a :: b :: list)).size) true = .ok numbers :=
        hnumbers
      simp only [choose, hnumbers, hresult]
    · have hall := hperm.filterMap ((a :: b :: list)[·]?)
      rw [filterMap_range, List.filterMap_map] at hall
      exact hall
    · intro n hn
      exact List.mem_range.mp (hperm.subset (List.mem_map_of_mem hn))

/-- A sampler that runs over a live source and keeps a context. -/
structure Running (live : σ → Prop) (context : Context) (s : Sample σ ν α) : Prop where
  phase : s.wrapped.phase = .running
  source : live s.wrapped.source
  context : s.context = some context

/-- A source at its beginning is read as a whole. -/
theorem materialize_delivers (hm : ∀ s, live s → live (m.generate s).2)
    (hd : d.Arranges context) {s : Sample σ ν α} (hs : Running live context s) {list : List α}
    (hlist : m.HandsOut s.wrapped.source list) (hsize : list.length ≤ context.settings.cacheSize)
    (hlength : list.length ≤ 2 ^ 63) (streams : Streams) :
    (machine m d true).Delivers (Running live context) (·.Perm list)
      (materialize m d true context s streams) := by
  obtain ⟨⟨source, _⟩, known, values, truncated, chooser⟩ := s
  obtain ⟨rfl, hs, rfl⟩ := hs
  have hread := hlist.readAhead hsize
  have hleft := m.readAhead_keeps hm context.settings.cacheSize hs
  rcases hresult : m.readAhead context.settings.cacheSize source with ⟨answer, source'⟩
  rw [hresult] at hread hleft
  obtain rfl : answer = .ok (list.toArray, false) := hread
  obtain ⟨chooser', streams', hchoose, order, hperm, horder⟩ :=
    choose_handsOut m hd list.toArray hlength streams
  have hmaterialize : materialize m d true context
      ⟨⟨source, .running⟩, some context, values, truncated, chooser⟩ streams =
      (.ok (), ⟨⟨source', .running⟩, some context, list.toArray, false, chooser'⟩, streams') := by
    simp only [materialize, hresult, hchoose]
  rw [hmaterialize]
  exact ⟨rfl, ⟨rfl, hleft, rfl⟩, order, hperm, horder source' (some context) false⟩

theorem generate_keeps (unique : Bool) (s : Sample σ ν α) :
    ((machine m d unique).generate s).2.wrapped = s.wrapped ∧
      ((machine m d unique).generate s).2.context = s.context := by
  obtain ⟨⟨source, phase⟩, known, values, truncated, chooser⟩ := s
  cases phase with
  | created | closed => exact ⟨rfl, rfl⟩
  | running =>
    cases chooser with
    | nothing | single _ => exact ⟨rfl, rfl⟩
    | positions numbers =>
      rcases hgenerate : d.machine.generate numbers with ⟨_ | _ | n, numbers'⟩
      all_goals simp [machine, emit, Phase.requireRunning, hgenerate]

/-- **A sampler without repetitions hands out what its source does**, in some order, as long
as it may read all of it in advance. -/
theorem supplies (hm : m.Supplies context fresh live full) (hd : d.Arranges context)
    (hsize : ∀ values, full values → values.length ≤ context.settings.cacheSize)
    (hlength : ∀ values, full values → values.length ≤ 2 ^ 63) :
    (machine m d true).Supplies context (fun s => ∃ source, fresh source ∧ s = new source)
      (Running live context) (fun order => ∃ values, full values ∧ order.Perm values) where
  init := by
    rintro _ streams ⟨source, hs, rfl⟩
    obtain ⟨source', streams', hinit, hs', values, hfull, hvalues⟩ :=
      Wrapped.init_delivers owner hm hs streams
    have hresult : (machine m d true).init context (new source) streams =
        materialize m d true context ⟨⟨source', .running⟩, some context, #[], false, .nothing⟩
          streams' := by
      simp only [machine, init, new, hinit]
    rw [hresult]
    exact (materialize_delivers hm.generate hd ⟨rfl, hs', rfl⟩ hvalues (hsize values hfull)
      (hlength values hfull) streams').imp fun _ hperm => ⟨values, hfull, hperm⟩
  generate := by
    intro s hs
    obtain ⟨hwrapped, hcontext⟩ := generate_keeps (m := m) (d := d) true s
    exact ⟨hwrapped ▸ hs.phase, hwrapped ▸ hs.source, hcontext ▸ hs.context⟩
  reset := by
    rintro ⟨⟨source, _⟩, _, values, truncated, chooser⟩ streams ⟨rfl, hs, rfl⟩
    obtain ⟨source', streams', hreset, hs', list, hfull, hlist⟩ :=
      Wrapped.reset_delivers owner hm (w := ⟨source, .running⟩) rfl hs streams
    have hresult : (machine m d true).reset
        ⟨⟨source, .running⟩, some context, values, truncated, chooser⟩ streams =
        materialize m d true context
          ⟨⟨source', .running⟩, some context, values, truncated, chooser⟩ streams' := by
      simp only [machine, hreset]
    rw [hresult]
    exact (materialize_delivers hm.generate hd ⟨rfl, hs', rfl⟩ hlist (hsize list hfull)
      (hlength list hfull) streams').imp fun _ hperm => ⟨list, hfull, hperm⟩

end Sample

/-! ## First occurrences -/

namespace Unique

variable [BEq α] [Hashable α] {seen : Std.HashSet α}

/-- The values of a list that are not in a set and do not occur earlier in the list. -/
def firsts (seen : Std.HashSet α) : List α → List α
  | [] => []
  | v :: rest => if seen.contains v then firsts seen rest else v :: firsts (seen.insert v) rest

theorem firsts_seen {v : α} (hv : seen.contains v = true) (rest : List α) :
    firsts seen (v :: rest) = firsts seen rest := by
  rw [firsts, if_pos hv]

theorem firsts_new {v : α} (hv : seen.contains v = false) (rest : List α) :
    firsts seen (v :: rest) = v :: firsts (seen.insert v) rest := by
  rw [firsts, if_neg (Bool.eq_false_iff.mp hv)]

theorem length_firsts_le (seen : Std.HashSet α) (list : List α) :
    (firsts seen list).length ≤ list.length := by
  induction list generalizing seen with
  | nil => exact Nat.le_refl 0
  | cons v rest ih =>
    cases hv : seen.contains v with
    | true => exact firsts_seen hv rest ▸ Nat.le_succ_of_le (ih seen)
    | false => exact firsts_new hv rest ▸ Nat.succ_le_succ (ih (seen.insert v))

theorem mem_firsts [LawfulBEq α] {list : List α} {a : α} :
    a ∈ firsts seen list ↔ a ∈ list ∧ a ∉ seen := by
  induction list generalizing seen with
  | nil => simp [firsts]
  | cons v rest ih =>
    cases hv : seen.contains v with
    | true =>
      have hv' : v ∈ seen := hv
      rw [firsts_seen hv, ih, List.mem_cons]
      refine ⟨fun h => ⟨Or.inr h.1, h.2⟩, fun ⟨ha, hseen⟩ => ⟨ha.resolve_left ?_, hseen⟩⟩
      rintro rfl
      exact hseen hv'
    | false =>
      have hv' : v ∉ seen := by simpa using hv
      rw [firsts_new hv, List.mem_cons, List.mem_cons, ih, Std.HashSet.mem_insert, beq_iff_eq]
      by_cases hav : a = v
      · subst hav
        simp [hv']
      · simp [hav, Ne.symm hav]

theorem nodup_firsts [LawfulBEq α] (seen : Std.HashSet α) (list : List α) :
    (firsts seen list).Nodup := by
  induction list generalizing seen with
  | nil => exact List.nodup_nil
  | cons v rest ih =>
    cases hv : seen.contains v with
    | true => exact firsts_seen hv rest ▸ ih seen
    | false =>
      rw [firsts_new hv]
      exact List.nodup_cons.mpr ⟨fun hmem => by simpa using (mem_firsts.mp hmem).2, ih _⟩

/-- The search for a value that was not there before, over a source with a known rest: it
ends with the source, or finds the first such value.  The chances are enough if the rest has
no more repeated values. -/
theorem seek_firsts (limit : Nat) (hlive : ∀ s, live s → live (m.generate s).2) {chances : Nat}
    {s : σ} {rest : List α} (hs : live s) (h : m.HandsOut s rest)
    (hchances : rest.length ≤ (firsts seen rest).length + chances) :
    ∃ s' rest', live s' ∧ m.HandsOut s' rest' ∧
      ((firsts seen rest = [] ∧ rest' = [] ∧
          seek m limit chances seen ⟨s, .running⟩ = (.ok none, seen, ⟨s', .running⟩)) ∨
        ∃ v, firsts seen rest = v :: firsts (seen.insert v) rest' ∧
          rest'.length ≤ (firsts (seen.insert v) rest').length + chances ∧
          seek m limit chances seen ⟨s, .running⟩ =
            (.ok (some v), seen.insert v, ⟨s', .running⟩)) := by
  induction rest generalizing s chances with
  | nil =>
    have hnext := hlive s hs
    obtain ⟨s', hgenerate, hleft⟩ := h.ended
    rw [hgenerate] at hnext
    refine ⟨s', [], hnext, hleft, Or.inl ⟨rfl, rfl, ?_⟩⟩
    unfold seek
    simp [Wrapped.generate, Phase.requireRunning, hgenerate]
  | cons v rest ih =>
    have hnext := hlive s hs
    obtain ⟨s', hgenerate, hleft⟩ := h.head
    rw [hgenerate] at hnext
    cases hv : seen.contains v with
    | false =>
      rw [firsts_new hv] at hchances ⊢
      refine ⟨s', rest, hnext, hleft, Or.inr ⟨v, rfl, ?_, ?_⟩⟩
      · simp only [List.length_cons] at hchances
        omega
      · unfold seek
        simp [Wrapped.generate, Phase.requireRunning, hgenerate, hv]
    | true =>
      have hle := length_firsts_le seen rest
      rw [firsts_seen hv, List.length_cons] at hchances
      rw [firsts_seen hv]
      cases chances with
      | zero => omega
      | succ chances =>
        have hseek : seek m limit (chances + 1) seen ⟨s, .running⟩ =
            seek m limit chances seen ⟨s', .running⟩ := by
          conv_lhs => unfold seek
          simp [Wrapped.generate, Phase.requireRunning, hgenerate, hv]
        rw [hseek]
        obtain ⟨s'', rest', hs'', hrest', hcases⟩ :=
          ih hnext hleft (show rest.length ≤ (firsts seen rest).length + chances by omega)
        refine ⟨s'', rest', hs'', hrest', hcases.imp_right ?_⟩
        rintro ⟨w, hfirsts, hroom, hfound⟩
        exact ⟨w, hfirsts, by omega, hfound⟩

/-- A filter for first occurrences in the course of a pass, with the values that are still
to come.  The repeated values that are left cannot exhaust its limit. -/
structure Holds (m : Machine σ α) (live : σ → Prop) (u : Unique σ α) (values : List α) : Prop where
  phase : u.wrapped.phase = .running
  source : live u.wrapped.source
  left : ∃ rest, m.HandsOut u.wrapped.source rest ∧ firsts u.seen rest = values ∧
    rest.length < values.length + u.limit

/-- **The next value that is still to come is handed out**, as long as there is one. -/
theorem generate_holds (hlive : ∀ s, live s → live (m.generate s).2) {u : Unique σ α}
    {values : List α} (hu : Holds m live u values) :
    ((machine m false).generate u).1 = .ok values.head? ∧
      Holds m live ((machine m false).generate u).2 values.tail ∧
      ((machine m false).generate u).2.limit = u.limit := by
  obtain ⟨⟨s, _⟩, seen, limit⟩ := u
  obtain ⟨rfl, hs, rest, hrest, rfl, hlimit⟩ := hu
  have hlimit : rest.length < (firsts seen rest).length + limit := hlimit
  have hpos : 0 < limit := by
    have hle := length_firsts_le seen rest
    omega
  have hchances : rest.length ≤ (firsts seen rest).length + (limit - 1) := by omega
  obtain ⟨s', rest', hs', hrest', ⟨hnil, rfl, hseek⟩ | ⟨v, hfirsts, hroom, hseek⟩⟩ :=
    seek_firsts limit hlive hs hrest hchances
  · have hgenerate : (machine m false).generate ⟨⟨s, .running⟩, seen, limit⟩ =
        (.ok none, ⟨⟨s', .running⟩, seen, limit⟩) := by
      simp only [machine, hseek]
    rw [hgenerate, hnil]
    exact ⟨rfl, ⟨rfl, hs', [], hrest', rfl, (Nat.zero_add limit).symm ▸ hpos⟩, rfl⟩
  · have hgenerate : (machine m false).generate ⟨⟨s, .running⟩, seen, limit⟩ =
        (.ok (some v), ⟨⟨s', .running⟩, seen.insert v, limit⟩) := by
      simp only [machine, hseek]
    rw [hgenerate, hfirsts]
    have hroom : rest'.length < (firsts (seen.insert v) rest').length + limit := by omega
    exact ⟨rfl, ⟨rfl, hs', rest', hrest', rfl, hroom⟩, rfl⟩

theorem Holds.handsOut (hlive : ∀ s, live s → live (m.generate s).2) {u : Unique σ α}
    {values : List α} (hu : Holds m live u values) : (machine m false).HandsOut u values := by
  induction values generalizing u with
  | nil =>
    exact .nil (Holds m live · [])
      (fun u hu => (generate_holds hlive hu).imp_right And.left) hu
  | cons v values ih =>
    obtain ⟨hanswer, hnext, -⟩ := generate_holds hlive hu
    exact .cons hanswer (ih hnext)

/-- A filter that has seen nothing over a source at its beginning. -/
theorem begins_delivers (hlive : ∀ s, live s → live (m.generate s).2) {s : σ} {values : List α}
    (hs : live s) (h : m.HandsOut s values) {limit : Nat}
    (hlimit : values.length < (firsts ∅ values).length + limit) (streams : Streams) :
    (machine m false).Delivers (fun u => u.limit = limit ∧ ∃ values, Holds m live u values)
      (· = firsts ∅ values) (.ok (), ⟨⟨s, .running⟩, ∅, limit⟩, streams) := by
  have hholds : Holds m live ⟨⟨s, .running⟩, ∅, limit⟩ (firsts ∅ values) :=
    ⟨rfl, hs, values, h, rfl, hlimit⟩
  exact ⟨rfl, ⟨rfl, _, hholds⟩, _, rfl, hholds.handsOut hlive⟩

/-- **First occurrences are passed on, each of them once**, and nothing fails if the limit of
the settings exceeds the number of repeated values. -/
theorem supplies (hm : m.Supplies context fresh live full)
    (hlimit : ∀ values, full values →
      values.length < (firsts ∅ values).length + settingsLimit context.settings) :
    (machine m false).Supplies context
      (fun u : Unique σ α => ∃ source, fresh source ∧ u = new source none)
      (fun u => u.limit = settingsLimit context.settings ∧ ∃ values, Holds m live u values)
      (fun order => ∃ values, full values ∧ order = firsts ∅ values) where
  init := by
    rintro _ streams ⟨source, hs, rfl⟩
    obtain ⟨s, streams', hinit, hs, values, hfull, hvalues⟩ :=
      Wrapped.init_delivers owner hm hs streams
    have hresult : (machine m false).init context (new source none) streams =
        (.ok (), ⟨⟨s, .running⟩, ∅, settingsLimit context.settings⟩, streams') := by
      simp [machine, new, hinit]
    rw [hresult]
    exact (begins_delivers hm.generate hs hvalues (hlimit values hfull) streams').imp
      fun _ horder => ⟨values, hfull, horder⟩
  generate := by
    rintro u ⟨hu, values, hvalues⟩
    obtain ⟨-, hnext, hkept⟩ := generate_holds hm.generate hvalues
    exact ⟨hkept.trans hu, _, hnext⟩
  reset := by
    rintro ⟨wrapped, seen, limit⟩ streams ⟨rfl, _, hu⟩
    obtain ⟨s, streams', hreset, hs, values, hfull, hvalues⟩ :=
      Wrapped.reset_delivers owner hm hu.phase hu.source streams
    have hresult : (machine m false).reset ⟨wrapped, seen, settingsLimit context.settings⟩ streams =
        (.ok (), ⟨⟨s, .running⟩, ∅, settingsLimit context.settings⟩, streams') := by
      simp only [machine, hreset]
    rw [hresult]
    exact (begins_delivers hm.generate hs hvalues (hlimit values hfull) streams').imp
      fun _ horder => ⟨values, hfull, horder⟩

end Unique

end

end SynthData
