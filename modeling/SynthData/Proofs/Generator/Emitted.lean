import SynthData.Proofs.Generator.Lifecycle
import SynthData.Proofs.Generator.Pool

/-!
# Where the values of a pool come from

An expander does with values that carry marks what it does with the values alone
(`emitAt_project`).  So one gives each value of its source its position, and follows the positions
through a pass: without repetitions none is handed out twice, and each comes at most as many
values early as the pool has room for (`Course.marked`).

The calls of the generator are calls with draws from its stream (`Begun.draws`), and all passes
begin alike, with an empty pool and the size that was asked for (`Kept`).  So every pass of every
expander redistributes its source (`pass_redistributes`).
-/
namespace SynthData.Expand

variable {σ τ α β : Type} {m : Machine σ α}

/-! ## More detailed values -/

/-- An expander over a source with less detailed states and values. -/
def project (state : τ → σ) (value : β → α) (e : Expand τ β) : Expand σ α :=
  ⟨⟨state e.wrapped.source, e.wrapped.phase⟩, e.pool.map value, e.capacity, e.depleted, e.rng⟩

section Project

variable {M : Machine τ β} {state : τ → σ} {value : β → α}

theorem takeOut_map (value : β → α) (pool : Array β) (index : Nat) :
    takeOut (pool.map value) index = (takeOut pool index).map value := by
  unfold takeOut
  rw [Array.back?_map]
  cases pool.back? with
  | none => rfl
  | some last => rw [Option.map_some, Array.map_pop, Array.map_setIfInBounds]

theorem pull_project (hM : M.Projects m state value) (depleted : Bool) (w : Wrapped τ) :
    pull m depleted ⟨state w.source, w.phase⟩ =
      ((pull M depleted w).1.map (Option.map value),
        ⟨state (pull M depleted w).2.1.source, (pull M depleted w).2.1.phase⟩,
        (pull M depleted w).2.2) := by
  obtain ⟨source, phase⟩ := w
  cases depleted with
  | true => rfl
  | false =>
    have hgenerate := hM.generate source
    rcases h : M.generate source with ⟨fault | _ | v, source'⟩
    all_goals
      rw [h] at hgenerate
      simp [pull, h, hgenerate, Except.map]

theorem fill_project (hM : M.Projects m state value) (room : Nat) (pool : Array β)
    (depleted : Bool) (w : Wrapped τ) :
    fill m room (pool.map value) depleted ⟨state w.source, w.phase⟩ =
      ((fill M room pool depleted w).1, (fill M room pool depleted w).2.1.map value,
        (fill M room pool depleted w).2.2.1,
        ⟨state (fill M room pool depleted w).2.2.2.source,
          (fill M room pool depleted w).2.2.2.phase⟩) := by
  induction room generalizing pool depleted w with
  | zero => rfl
  | succ room ih =>
    have hpull' := pull_project hM depleted w
    rcases hpull : pull M depleted w with ⟨fault | _ | v, w', depleted'⟩
    all_goals
      rw [hpull] at hpull'
      simp only [fill, hpull, hpull', Except.map, Option.map]
    rw [← Array.map_push, ih]

theorem refill_project (hM : M.Projects m state value) (e : Expand τ β) :
    refill m (e.project state value) = ((refill M e).1, (refill M e).2.project state value) := by
  have hfill := fill_project hM (e.capacity.getD 1 - e.pool.size) e.pool e.depleted e.wrapped
  simp [refill, project, hfill]

theorem handOut_project (hM : M.Projects m state value) (unique : Bool) (index : Nat)
    (keep : Bool) (e : Expand τ β) :
    handOut m unique index keep (e.project state value) =
      ((handOut M unique index keep e).1.map (Option.map value),
        (handOut M unique index keep e).2.project state value) := by
  obtain ⟨w, pool, capacity, depleted, rng⟩ := e
  cases unique with
  | true => simp [handOut, project, takeOut_map, Except.map]
  | false =>
    cases keep with
    | true => simp [handOut, project, Except.map]
    | false =>
      have hpull' := pull_project hM depleted w
      rcases hpull : pull M depleted w with ⟨fault | _ | v, w', depleted'⟩
      all_goals
        rw [hpull] at hpull'
        simp [handOut, project, hpull, hpull', Except.map, Array.map_setIfInBounds]

/-- **Which members are handed out does not depend on what they are.** -/
theorem emitAt_project (hM : M.Projects m state value) (unique : Bool) (d : Draw)
    (e : Expand τ β) :
    emitAt m unique d (e.project state value) =
      ((emitAt M unique d e).1.map (Option.map value),
        (emitAt M unique d e).2.project state value) := by
  unfold emitAt
  rw [refill_project hM]
  rcases refill M e with ⟨fault | _, e'⟩
  · rfl
  · have hsize : (e'.project state value).pool.size = e'.pool.size := Array.size_map
    by_cases hempty : e'.pool = #[]
    · simp [hempty, project, Except.map]
    · simp only [hsize, handOut_project hM]
      simp [hempty, project]

theorem afterDraws_project (hM : M.Projects m state value) (unique : Bool) (draws : Nat → Draw)
    (e : Expand τ β) (k : Nat) :
    afterDraws m unique draws (e.project state value) k =
      (afterDraws M unique draws e k).project state value := by
  induction k with
  | zero => rfl
  | succ k ih => rw [afterDraws, ih, emitAt_project hM, afterDraws]

theorem streamDraws_project (hM : M.Projects m state value) (unique : Bool) (draws : Nat → Draw)
    (e : Expand τ β) (k : Nat) :
    streamDraws m unique draws (e.project state value) k =
      (streamDraws M unique draws e k).map value := by
  induction k with
  | zero => rfl
  | succ k ih =>
    rw [streamDraws_succ, streamDraws_succ, ih, List.map_append, answerDraws,
      afterDraws_project hM, emitAt_project hM, ← answerDraws]
    rcases answerDraws M unique draws e k with _ | _ | v
    all_goals rfl

end Project

/-! ## The draws of the generator -/

/-- What a call draws from a stream. -/
def drawOf (quota : Float) (rng : Rng) : Draw where
  place size := (rng.below size).1
  keep size := (rng.below size).2.unit.1 < quota
  place_lt _ h := rng.below_lt h

/-- A call with given draws does not look at the stream. -/
theorem emitAt_rng (m : Machine σ α) (unique : Bool) (d : Draw) (e : Expand σ α)
    (rng : Option Rng) :
    emitAt m unique d { e with rng := rng } =
      ((emitAt m unique d e).1, { (emitAt m unique d e).2 with rng := rng }) := by
  obtain ⟨w, pool, capacity, depleted, rng'⟩ := e
  simp only [emitAt, refill]
  rcases fill m (capacity.getD 1 - pool.size) pool depleted w with ⟨_ | _, pool', depleted', w'⟩
  · rfl
  · by_cases hempty : pool' = #[]
    · simp [hempty]
    · cases unique with
      | true => simp [hempty, handOut]
      | false =>
        cases hkeep : d.keep pool'.size with
        | true => simp [hempty, handOut, hkeep]
        | false =>
          rcases hpull : pull m depleted' w' with ⟨_ | _ | v, w'', depleted''⟩
          all_goals simp [hempty, handOut, hkeep, hpull]

/-- **A running expander draws from its stream.** -/
theorem emit_eq_emitAt (m : Machine σ α) (unique : Bool) (quota : Float) {e : Expand σ α}
    {rng : Rng} (he : e.rng = some rng) :
    ∃ rng', emit m unique quota e =
      ((emitAt m unique (drawOf quota rng) e).1,
        { (emitAt m unique (drawOf quota rng) e).2 with rng := some rng' }) := by
  obtain ⟨w, pool, capacity, depleted, rng'⟩ := e
  obtain rfl : rng' = some rng := he
  simp only [emitAt, emit, refill]
  rcases fill m (capacity.getD 1 - pool.size) pool depleted w with ⟨_ | _, pool', depleted', w'⟩
  · exact ⟨rng, rfl⟩
  · by_cases hempty : pool' = #[]
    · exact ⟨rng, by simp [hempty]⟩
    · cases unique with
      | true => exact ⟨(rng.below pool'.size).2, by simp [hempty, handOut, drawOf]⟩
      | false =>
        refine ⟨(rng.below pool'.size).2.unit.2, ?_⟩
        by_cases hkeep : (rng.below pool'.size).2.unit.1 < quota
        · simp [hempty, handOut, drawOf, hkeep]
        · rcases hpull : pull m depleted' w' with ⟨_ | _ | v, w'', depleted''⟩
          all_goals simp [hempty, handOut, drawOf, hkeep, hpull]

/-- **The calls of the generator are calls with draws from certain streams.** -/
theorem Begun.draws {size : Nat} {e : Expand σ α} (he : Begun size e) (m : Machine σ α)
    (unique : Bool) (quota : Float) :
    ∃ rngs : Nat → Rng, ∀ k,
      (machine m unique quota).answer k e =
        answerDraws m unique (fun j => drawOf quota (rngs j)) e k ∧
      ∃ rng, (machine m unique quota).after k e =
        { afterDraws m unique (fun j => drawOf quota (rngs j)) e k with rng := some rng } := by
  have hgenerate {e' : Expand σ α} (hphase : e'.wrapped.phase = .running) :
      (machine m unique quota).generate e' = emit m unique quota e' := by
    simp [machine, hphase, Phase.requireRunning]
  have hlive (k : Nat) : ((machine m unique quota).after k e).wrapped.phase = .running ∧
      ∃ rng, ((machine m unique quota).after k e).rng = some rng := by
    induction k with
    | zero => exact ⟨he.phase, he.drawing⟩
    | succ k ih =>
      obtain ⟨hphase, rng, hrng⟩ := ih
      obtain ⟨rng', hemit⟩ := emit_eq_emitAt m unique quota hrng
      rw [Machine.after, hgenerate hphase]
      exact ⟨(emit_phase m unique quota _).trans hphase, rng', by rw [hemit]⟩
  choose rng hrng using fun k => (hlive k).2
  have hcall (k : Nat) : ∃ rng',
      (machine m unique quota).generate ((machine m unique quota).after k e) =
        ((emitAt m unique (drawOf quota (rng k)) ((machine m unique quota).after k e)).1,
          { (emitAt m unique (drawOf quota (rng k)) ((machine m unique quota).after k e)).2 with
            rng := some rng' }) := by
    rw [hgenerate (hlive k).1]
    exact emit_eq_emitAt m unique quota (hrng k)
  have hafter (k : Nat) : ∃ rng', (machine m unique quota).after k e =
      { afterDraws m unique (fun k => drawOf quota (rng k)) e k with rng := some rng' } := by
    induction k with
    | zero =>
      obtain ⟨rng', hdrawing⟩ := he.drawing
      exact ⟨rng', by rw [← hdrawing]; rfl⟩
    | succ k ih =>
      obtain ⟨rng', hstate⟩ := ih
      obtain ⟨rng'', hstep⟩ := hcall k
      refine ⟨rng'', ?_⟩
      rw [Machine.after, hstep, hstate, emitAt_rng]
      rfl
  refine ⟨rng, fun k => ⟨?_, hafter k⟩⟩
  obtain ⟨rng', hstate⟩ := hafter k
  obtain ⟨rng'', hstep⟩ := hcall k
  rw [Machine.answer, hstep, hstate, emitAt_rng]
  rfl

/-! ## The life of an expander -/

/-- A size of the pool: the one that was asked for, if there was one. -/
structure Sized (capacity : Option Nat) (size : Nat) : Prop where
  pos : 0 < size
  asked_for : ∀ n, capacity = some n → size = max 1 n

/-- An expander at any time of its life. -/
inductive Kept (capacity : Option Nat) : Expand σ α → Prop
  | created (source : σ) : Kept capacity (new source capacity)
  | running (source : σ) {pool : Array α} {size : Nat} (depleted : Bool) (rng : Rng)
      (sized : Sized capacity size) (room : pool.size ≤ size) :
      Kept capacity ⟨⟨source, .running⟩, pool, some size, depleted, some rng⟩
  | closed (source : σ) (size : Option Nat) (depleted : Bool) (rng : Option Rng) :
      Kept capacity ⟨⟨source, .closed⟩, #[], size, depleted, rng⟩

/-- An expander at the beginning of a pass over a source. -/
def Begins (capacity : Option Nat) (source : σ) (e : Expand σ α) : Prop :=
  e.wrapped.source = source ∧ ∃ size, Sized capacity size ∧ Begun size e

section Life

variable {capacity : Option Nat} {e : Expand σ α}

theorem Kept.room (he : Kept capacity e) : e.pool.size ≤ e.capacity.getD 0 := by
  cases he with
  | created source => exact Nat.zero_le _
  | running source depleted rng sized room => exact room
  | closed source size depleted rng => exact Nat.zero_le _

theorem Kept.of_running {size : Nat} {rng : Rng} (hphase : e.wrapped.phase = .running)
    (hcapacity : e.capacity = some size) (hsized : Sized capacity size)
    (hroom : e.pool.size ≤ size) (hrng : e.rng = some rng) : Kept capacity e := by
  obtain ⟨⟨source, phase⟩, pool, size', depleted, rng'⟩ := e
  obtain rfl : phase = .running := hphase
  obtain rfl : size' = some size := hcapacity
  obtain rfl : rng' = some rng := hrng
  exact .running source depleted rng hsized hroom

theorem Begins.kept {source : σ} (he : Begins capacity source e) : Kept capacity e := by
  obtain ⟨-, size, hsized, hbegun⟩ := he
  obtain ⟨rng, hrng⟩ := hbegun.drawing
  exact .of_running hbegun.phase hbegun.capacity_eq hsized (by simp [hbegun.pool_eq]) hrng

/-- The size is settled at the latest when a pass begins. -/
theorem capacityFrom_sized (context : Context) (capacity : Option Nat) :
    ∃ size, Sized capacity size ∧ capacityFrom context (capacity.map (max 1)) = some size := by
  cases capacity with
  | none => exact ⟨_, ⟨Nat.le_max_left 1 _, nofun⟩, rfl⟩
  | some n =>
    refine ⟨_, ⟨Nat.le_max_left 1 n, ?_⟩, rfl⟩
    rintro _ ⟨⟩
    rfl

/-- A pass begins with an empty pool. -/
theorem begins_empty {size : Nat} (hsized : Sized capacity size) (source : σ) (rng : Rng) :
    Begins capacity source (⟨⟨source, .running⟩, #[], some size, false, some rng⟩ : Expand σ α) :=
  ⟨rfl, size, hsized, rfl, rfl, hsized.pos, rfl, rfl, rng, rfl⟩

/-- What initializes a created expander leaves it created if its source fails, and else begins a
pass. -/
theorem kept_of_opened {context : Context} (source : σ) {streams : Streams}
    {begun : Except Fault Unit × Expand σ α × Streams}
    (hfailed : ∀ fault source' streams',
      m.init context source streams = (.error fault, source', streams') →
        begun = (.error fault, new source' capacity, streams'))
    (hopened : ∀ source' streams', m.init context source streams = (.ok (), source', streams') →
      ∃ known rng streams'', begun = (.ok (), ⟨⟨source', .running⟩, #[],
        capacityFrom known (capacity.map (max 1)), false, some rng⟩, streams'')) :
    Kept capacity begun.2.1 ∧
      (begun.1 = .ok () → Begins capacity (m.init context source streams).2.1 begun.2.1) := by
  rcases hinit : m.init context source streams with ⟨fault | _, source', streams'⟩
  · rw [hfailed fault source' streams' hinit]
    exact ⟨.created source', by simp⟩
  · obtain ⟨known, rng, streams'', hbegun⟩ := hopened source' streams' hinit
    obtain ⟨size, hsized, hcapacity⟩ := capacityFrom_sized known capacity
    rw [hbegun, hcapacity]
    have hbegins := begins_empty (α := α) hsized source' rng
    exact ⟨hbegins.kept, fun _ => hbegins⟩

theorem Kept.init (he : Kept capacity e) (m : Machine σ α) (unique : Bool) (quota : Float)
    (context : Context) (streams : Streams) :
    let begun := (machine m unique quota).init context e streams
    Kept capacity begun.2.1 ∧ (begun.1 = .ok () →
      Begins capacity (m.init context e.wrapped.source streams).2.1 begun.2.1) := by
  cases he with
  | running source depleted rng sized room =>
    refine ⟨.running source depleted rng sized room, ?_⟩
    simp [machine, Wrapped.init, Phase.requireCreated]
  | closed source size depleted rng =>
    refine ⟨.closed source size depleted rng, ?_⟩
    simp [machine, Wrapped.init, Phase.requireCreated]
  | created source =>
    refine kept_of_opened source ?_ ?_
    · intro fault source' streams' hinit
      simp [machine, new, Wrapped.new, Wrapped.init, Phase.requireCreated, hinit]
    · intro source' streams' hinit
      refine ⟨context, (streams'.issue context).1, (streams'.issue context).2, ?_⟩
      simp [machine, new, Wrapped.new, Wrapped.init, Phase.requireCreated, hinit]

/-- An expander that is reset before it was initialized is initialized with a context of its
own. -/
theorem Kept.reset (he : Kept capacity e) (m : Machine σ α) (unique : Bool) (quota : Float)
    (streams : Streams) :
    let begun := (machine m unique quota).reset e streams
    Kept capacity begun.2.1 ∧
      (begun.1 = .ok () → e.wrapped.phase = .running →
        Begins capacity (m.reset e.wrapped.source streams).2.1 begun.2.1) ∧
      (begun.1 = .ok () → e.wrapped.phase = .created →
        Begins capacity (m.init streams.defaultContext.1 e.wrapped.source
          streams.defaultContext.2).2.1 begun.2.1) := by
  cases he with
  | closed source size depleted rng =>
    exact ⟨.closed source size depleted rng, by simp, by simp⟩
  | running source depleted rng sized room =>
    rename_i pool size
    rcases hreset : m.reset source streams with ⟨fault | _, source', streams'⟩
    · have hresult : (machine m unique quota).reset
          ⟨⟨source, .running⟩, pool, some size, depleted, some rng⟩ streams =
          (.error fault, ⟨⟨source', .running⟩, pool, some size, depleted, some rng⟩, streams') := by
        simp [machine, Wrapped.reset, hreset]
      rw [hresult]
      exact ⟨.running source' depleted rng sized room, by simp, by simp⟩
    · have hresult : (machine m unique quota).reset
          ⟨⟨source, .running⟩, pool, some size, depleted, some rng⟩ streams =
          (.ok (), ⟨⟨source', .running⟩, #[], some size, false, some rng⟩, streams') := by
        simp [machine, Wrapped.reset, hreset]
      rw [hresult]
      have hbegins := begins_empty (α := α) sized source' rng
      exact ⟨hbegins.kept, fun _ _ => by simpa only [hreset] using hbegins, by simp⟩
  | created source =>
    have hopened :
        Kept capacity ((machine m unique quota).reset (new source capacity) streams).2.1 ∧
        (((machine m unique quota).reset (new source capacity) streams).1 = .ok () →
          Begins capacity (m.init streams.defaultContext.1 source streams.defaultContext.2).2.1
            ((machine m unique quota).reset (new source capacity) streams).2.1) := by
      refine kept_of_opened source ?_ ?_
      · intro fault source' streams' hinit
        simp [machine, new, Wrapped.new, Wrapped.reset, Wrapped.init, Phase.requireCreated, hinit]
      · intro source' streams' hinit
        refine ⟨streams'.defaultContext.1,
          (streams'.defaultContext.2.issue streams'.defaultContext.1).1,
          (streams'.defaultContext.2.issue streams'.defaultContext.1).2, ?_⟩
        simp [machine, new, Wrapped.new, Wrapped.reset, Wrapped.init, Phase.requireCreated, hinit]
    exact ⟨hopened.1, by simp [new, Wrapped.new], fun hok _ => hopened.2 hok⟩

theorem fill_size (m : Machine σ α) (room : Nat) (pool : Array α) (depleted : Bool)
    (w : Wrapped σ) : (fill m room pool depleted w).2.1.size ≤ pool.size + room := by
  induction room generalizing pool depleted w with
  | zero => exact Nat.le_refl _
  | succ room ih =>
    unfold fill
    rcases pull m depleted w with ⟨_ | _ | v, w', depleted'⟩
    · exact Nat.le_add_right _ _
    · exact Nat.le_add_right _ _
    · have hrest := ih (pool.push v) depleted' w'
      rw [Array.size_push] at hrest
      dsimp only
      omega

theorem takeOut_size (pool : Array α) (index : Nat) : (takeOut pool index).size ≤ pool.size := by
  unfold takeOut
  cases pool.back? with
  | none => exact Nat.le_refl _
  | some last => simp

/-- Handing a member out makes no pool larger, and has nothing to do with its capacity. -/
theorem handOut_size (m : Machine σ α) (unique : Bool) (index : Nat) (keep : Bool)
    (e : Expand σ α) :
    (handOut m unique index keep e).2.pool.size ≤ e.pool.size ∧
      (handOut m unique index keep e).2.capacity = e.capacity := by
  obtain ⟨w, pool, size, depleted, rng⟩ := e
  unfold handOut
  dsimp only
  split
  · exact ⟨takeOut_size pool index, rfl⟩
  · split
    · exact ⟨Nat.le_refl _, rfl⟩
    · rcases pull m depleted w with ⟨_ | _ | v, w', depleted'⟩
      · exact ⟨Nat.le_refl _, rfl⟩
      · exact ⟨Nat.le_refl _, rfl⟩
      · exact ⟨Nat.le_of_eq Array.size_setIfInBounds, rfl⟩

/-- A call leaves no more in a pool than there is room for. -/
theorem emitAt_size (m : Machine σ α) (unique : Bool) (d : Draw) {size : Nat}
    (hcapacity : e.capacity = some size) (hroom : e.pool.size ≤ size) :
    (emitAt m unique d e).2.pool.size ≤ size ∧ (emitAt m unique d e).2.capacity = some size := by
  have hfilled : (refill m e).2.pool.size ≤ e.pool.size + (e.capacity.getD 1 - e.pool.size) :=
    fill_size m _ e.pool e.depleted e.wrapped
  rw [hcapacity, Option.getD_some, Nat.add_sub_cancel' hroom] at hfilled
  have hsame : (refill m e).2.capacity = some size := hcapacity
  unfold emitAt
  rcases hrefill : refill m e with ⟨_ | _, e'⟩
  all_goals rw [hrefill] at hfilled hsame
  · exact ⟨hfilled, hsame⟩
  · dsimp only
    split
    · exact ⟨hfilled, hsame⟩
    · obtain ⟨hsize, hkept⟩ := handOut_size m unique (d.place e'.pool.size) (d.keep e'.pool.size) e'
      exact ⟨Nat.le_trans hsize hfilled, hkept.trans hsame⟩

theorem Kept.generate (he : Kept capacity e) (m : Machine σ α) (unique : Bool) (quota : Float) :
    Kept capacity ((machine m unique quota).generate e).2 := by
  cases he with
  | created source => exact .created source
  | closed source size depleted rng => exact .closed source size depleted rng
  | running source depleted rng sized room =>
    rename_i pool size
    have hrunning : (machine m unique quota).generate
        ⟨⟨source, .running⟩, pool, some size, depleted, some rng⟩ =
        emit m unique quota ⟨⟨source, .running⟩, pool, some size, depleted, some rng⟩ := rfl
    have hphase := emit_phase m unique quota
      ⟨⟨source, .running⟩, pool, some size, depleted, some rng⟩
    obtain ⟨rng', hemit⟩ := emit_eq_emitAt m unique quota
      (e := ⟨⟨source, .running⟩, pool, some size, depleted, some rng⟩) rfl
    obtain ⟨hroom, hsize⟩ := emitAt_size m unique (drawOf quota rng)
      (e := ⟨⟨source, .running⟩, pool, some size, depleted, some rng⟩) rfl room
    rw [hrunning]
    rw [hemit] at hphase ⊢
    exact .of_running hphase hsize sized hroom rfl

theorem keeps_kept (m : Machine σ α) (unique : Bool) (quota : Float) :
    (machine m unique quota).Keeps (Kept capacity) where
  init := fun context _ streams he => (he.init m unique quota context streams).1
  generate := fun _ he => he.generate m unique quota
  reset := fun _ streams he => (he.reset m unique quota streams).1
  close := fun _ _ => .closed _ _ _ _

end Life

/-! ## What a pass without repetitions hands out -/

/-- The same expander at the beginning of a pass, over a source whose values carry their
positions. -/
def numbered (e : Expand σ α) : Expand (σ × Nat) (α × Nat) :=
  ⟨⟨(e.wrapped.source, 0), e.wrapped.phase⟩, #[], e.capacity, e.depleted, e.rng⟩

/-- **What a pass without repetitions makes of its source**, if it draws what is given.  The values
are handed out by their positions in the source. -/
structure Redistributes (m : Machine σ α) (size : Nat) (draws : Nat → Draw) (e : Expand σ α) :
    Prop where
  /-- Positions are carried along, and make no difference. -/
  values : ∀ k, streamDraws m true draws e k =
    (streamDraws m.numbered true draws e.numbered k).map Prod.fst
  /-- No position is handed out twice. -/
  once : ∀ k, ((streamDraws m.numbered true draws e.numbered k).map Prod.snd).Nodup
  /-- The `i`-th value is one of the first `i + size` values of the source. -/
  soon : ∀ k i v p, (streamDraws m.numbered true draws e.numbered k)[i]? = some (v, p) →
    p < i + size ∧ ∃ read, (m.stream read e.wrapped.source)[p]? = some v
  /-- The pool has no more than `size` values, before each call and when it has been filled. -/
  room : ∀ k, (afterDraws m true draws e k).pool.size ≤ size ∧
    (refill m (afterDraws m true draws e k)).2.pool.size ≤ size
  /-- The values end when the source ends, and do not come back. -/
  ended : ∀ k, answerDraws m true draws e k = .ok none ↔
    ∃ j, j ≤ k ∧ m.answer j e.wrapped.source = .ok none
  /-- If the source ends, all its values have been handed out then, in some order. -/
  whole : ∀ n, m.answer n e.wrapped.source = .ok none →
    (∀ j, j < n → m.answer j e.wrapped.source ≠ .ok none) →
    ∀ k, n ≤ k → (streamDraws m true draws e k).Perm (m.stream n e.wrapped.source)

/-- A pass over a source: whatever is drawn, its values are redistributed, and the calls of the
generator are calls with certain draws. -/
def Passes (m : Machine σ α) (quota : Float) (capacity : Option Nat) (source : σ)
    (e : Expand σ α) : Prop :=
  e.wrapped.source = source ∧ ∃ size, Sized capacity size ∧
    (∀ draws, Redistributes m size draws e) ∧
    ∃ draws, ∀ k, (machine m true quota).answer k e = answerDraws m true draws e k ∧
      ((machine m true quota).after k e).pool = (afterDraws m true draws e k).pool

section Pass

variable {size : Nat} {e : Expand σ α}

theorem Begun.numbered (he : Begun size e) : Begun size e.numbered where
  phase := he.phase
  capacity_eq := he.capacity_eq
  size_pos := he.size_pos
  pool_eq := rfl
  depleted_eq := he.depleted_eq
  drawing := he.drawing

theorem Begun.project_numbered (he : Begun size e) :
    e.numbered.project Prod.fst Prod.fst = e := by
  obtain ⟨w, pool, capacity, depleted, rng⟩ := e
  obtain rfl : pool = #[] := he.pool_eq
  simp [Expand.numbered, project]

/-- When the source has ended, nothing is left in the pool. -/
theorem Course.whole {s : σ} {calls asked : Nat} {emitted : List α}
    (h : Course m s size calls asked emitted e) {n : Nat} (hn : m.answer n s = .ok none)
    (hfirst : ∀ j, j < n → m.answer j s ≠ .ok none) (hcalls : n ≤ calls) :
    emitted.Perm (m.stream n s) := by
  have hle := h.reading.le hn
  have hvalues := h.values
  obtain hahead | ⟨hd, hpool, -⟩ := h.balance
  · have hpool : e.pool = #[] := Array.eq_empty_of_size_eq_zero (by omega)
    obtain rfl : asked = n := by omega
    rwa [hpool, List.append_nil] at hvalues
  · have hend : n ≤ asked := by
      by_contra hlt
      exact hfirst asked (by omega) (h.reading.known hd)
    obtain rfl : asked = n := by omega
    rwa [hpool, List.append_nil] at hvalues

/-- No position is among the values of a pass twice, nor beyond what it has read. -/
theorem Course.marked {s : σ} {calls asked : Nat} {emitted : List (α × Nat)}
    {e : Expand (σ × Nat) (α × Nat)}
    (h : Course m.numbered (s, 0) size calls asked emitted e) :
    (emitted.map Prod.snd).Nodup ∧ ∀ i v p, emitted[i]? = some (v, p) →
      p < i + size ∧ ∃ read, (m.stream read s)[p]? = some v := by
  constructor
  · have hvalues := h.values.map Prod.snd
    rw [m.stream_numbered, List.zipIdx_map_snd, List.map_append] at hvalues
    exact (hvalues.nodup_iff.mpr List.nodup_range').sublist (List.sublist_append_left _ _)
  · intro i v p hi
    obtain ⟨read, hmem, hlength⟩ := h.soon i (v, p) hi
    rw [m.stream_numbered] at hmem hlength
    have hp := List.mk_mem_zipIdx_iff_getElem?.mp hmem
    have hlt := (List.getElem?_eq_some_iff.mp hp).1
    rw [List.length_zipIdx] at hlength
    exact ⟨by omega, read, hp⟩

/-- **A pass redistributes the values of its source**, whatever it draws. -/
theorem Begun.redistributes (he : Begun size e) (draws : Nat → Draw) :
    Redistributes m size draws e := by
  have hmarked := he.numbered.run (m := m.numbered) draws
  have hrun := he.run (m := m) draws
  refine ⟨?values, ?once, ?soon, ?room, ?ended, ?whole⟩
  case values =>
    intro k
    rw [← streamDraws_project m.projects_numbered, he.project_numbered]
  case once =>
    intro k
    obtain ⟨asked, hcourse⟩ := hmarked k
    exact hcourse.marked.1
  case soon =>
    intro k
    obtain ⟨asked, hcourse⟩ := hmarked k
    exact hcourse.marked.2
  case room =>
    intro k
    obtain ⟨asked, hcourse⟩ := hrun k
    obtain ⟨asked', -, hfilled, -⟩ := hcourse.refill
    exact ⟨hcourse.room, hfilled⟩
  case ended =>
    intro k
    obtain ⟨asked, hcourse⟩ := hrun k
    exact (hcourse.emitAt he.size_pos (draws k)).1
  case whole =>
    intro n hn hfirst k hk
    obtain ⟨asked, hcourse⟩ := hrun k
    exact hcourse.whole hn hfirst hk

theorem Begins.passes {capacity : Option Nat} {source : σ} (he : Begins capacity source e)
    (m : Machine σ α) (quota : Float) : Passes m quota capacity source e := by
  obtain ⟨hsource, size, hsized, hbegun⟩ := he
  obtain ⟨rngs, hdraws⟩ := hbegun.draws m true quota
  refine ⟨hsource, size, hsized, hbegun.redistributes, fun j => drawOf quota (rngs j), ?_⟩
  intro k
  obtain ⟨hanswer, rng, hafter⟩ := hdraws k
  exact ⟨hanswer, by rw [hafter]⟩

end Pass

/-- **A pool without repetitions redistributes its source.**  After any history of calls, the pool
has no more members than it has room for, and a call of `init` or `reset` that succeeds begins a
pass over the source as it has left it (`Passes`).  In this pass no position of the source is
handed out twice, whatever is drawn; a value comes at most as many values early as the pool has
room for; and if the source ends, all its values are handed out and then nothing any more. -/
theorem pass_redistributes (m : Machine σ α) (quota : Float) (source : σ) (capacity : Option Nat)
    (streams : Streams) (calls : List Machine.Call) :
    let expander := machine m true quota
    let r := expander.run calls (.start (new source capacity) streams)
    r.state.pool.size ≤ r.state.capacity.getD 0 ∧
      (∀ context, (expander.init context r.state r.streams).1 = .ok () →
        Passes m quota capacity (m.init context r.state.wrapped.source r.streams).2.1
          (expander.init context r.state r.streams).2.1) ∧
      ((expander.reset r.state r.streams).1 = .ok () → r.state.wrapped.phase = .running →
        Passes m quota capacity (m.reset r.state.wrapped.source r.streams).2.1
          (expander.reset r.state r.streams).2.1) ∧
      ((expander.reset r.state r.streams).1 = .ok () → r.state.wrapped.phase = .created →
        Passes m quota capacity
          (m.init r.streams.defaultContext.1 r.state.wrapped.source
            r.streams.defaultContext.2).2.1
          (expander.reset r.state r.streams).2.1) := by
  intro expander r
  have hkept : Kept capacity r.state :=
    (keeps_kept m true quota).run (r := .start (new source capacity) streams) (.created source)
      calls
  obtain ⟨-, hrestarts, hstarts⟩ := hkept.reset m true quota r.streams
  refine ⟨hkept.room, ?_, ?_, ?_⟩
  · intro context hok
    exact ((hkept.init m true quota context r.streams).2 hok).passes m quota
  · intro hok hrunning
    exact (hrestarts hok hrunning).passes m quota
  · intro hok hcreated
    exact (hstarts hok hcreated).passes m quota

/-- Three letters and a pool for two of them: whatever is drawn, three calls hand all of them out,
the last one not as the first. -/
theorem pass_redistributes_threeLetters :
    let expander := machine Listed.machine true 0
    let e : Expand (Leaf (Listed Char)) Char := .new (Listed.new #['a', 'b', 'c']) (some 2)
    let begun := expander.init ⟨{}, 0⟩ e (.start fun _ => .ofSeed 0)
    begun.1 = .ok () ∧ ∀ draws, Redistributes Listed.machine 2 draws begun.2.1 ∧
      ∀ k, 3 ≤ k → (streamDraws Listed.machine true draws begun.2.1 k).Perm ['a', 'b', 'c'] := by
  intro expander e begun
  have hok : begun.1 = .ok () := by rfl
  obtain ⟨hsource, size, hsized, hredistributes, -⟩ :=
    (pass_redistributes Listed.machine 0 (Listed.new #['a', 'b', 'c']) (some 2)
      (.start fun _ => .ofSeed 0) []).2.1 ⟨{}, 0⟩ hok
  obtain rfl : size = 2 := hsized.asked_for 2 rfl
  refine ⟨hok, ?_⟩
  intro draws
  refine ⟨hredistributes draws, ?_⟩
  intro k hk
  refine (hredistributes draws).whole 3 rfl ?_ k hk
  intro j hj
  obtain rfl | rfl | rfl : j = 0 ∨ j = 1 ∨ j = 2 := by omega
  all_goals nofun

end SynthData.Expand
