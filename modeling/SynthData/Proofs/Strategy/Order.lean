import SynthData.Proofs.Strategy.Restart

/-!
# Passes in the order of a walk

A grid hands out the points at the indices that its walk finds, one after the other.  A walk that
draws nothing finds the same indices whenever it is rewound.  So all passes of the grid are the
same (`Machine.EachPass`), in whatever state of its life it is initialized or reset
(`NumberGen.eachPass_grid`), and what can be handed out at all are the points of such a pass
(`NumberGen.mem_pass_iff`).
-/
namespace SynthData

/-! ## Passes that are all the same -/

namespace Machine

variable {σ τ α : Type} {m : Machine σ α} {M : Machine τ α} {wrap : σ → τ}

/-- The replies to the calls of `generate`, none of which fails. -/
def Replies (m : Machine σ α) (s : σ) (answer : Nat → Option α) : Prop :=
  ∀ k, m.answer k s = .ok (answer k)

/-- **Every pass has the same answers.**  After any history of calls, `init` of a generator that is
still new succeeds, and so does `reset` of one that is not closed; then the call `k` of `generate`
hands out `answer k`, if that is a value. -/
def EachPass (m : Machine σ α) (s : σ) (answer : Nat → Option α) : Prop :=
  ∀ (calls : List Call) (streams : Streams),
    let r := m.run calls (.start s streams)
    (m.phase r.state = .created → ∀ context,
        (m.init context r.state r.streams).1 = .ok () ∧
          m.Replies (m.init context r.state r.streams).2.1 answer) ∧
      (m.phase r.state ≠ .closed →
        (m.reset r.state r.streams).1 = .ok () ∧
          m.Replies (m.reset r.state r.streams).2.1 answer)

theorem Replies.embed {s : σ} {answer : Nat → Option α} (hs : m.Replies s answer)
    (h : m.Embeds M wrap) : M.Replies (wrap s) answer := by
  have hafter (k : Nat) : M.after k (wrap s) = wrap (m.after k s) := by
    induction k with
    | zero => rfl
    | succ k ih => rw [after, ih, h.generate, after]
  intro k
  rw [Machine.answer, hafter, h.generate]
  exact hs k

/-- A run of a machine, as one of a machine that treats its states in the same way. -/
theorem Embeds.run (h : m.Embeds M wrap) (calls : List Call) (r : Run σ α) :
    M.run calls ⟨wrap r.state, r.streams, r.pass⟩ =
      ⟨wrap (m.run calls r).state, (m.run calls r).streams, (m.run calls r).pass⟩ := by
  induction calls generalizing r with
  | nil => rfl
  | cons c calls ih =>
    have hcall : M.call ⟨wrap r.state, r.streams, r.pass⟩ c =
        ⟨wrap (m.call r c).state, (m.call r c).streams, (m.call r c).pass⟩ := by
      cases c with
      | init context => simp only [call, h.init]
      | generate =>
        simp only [call, h.generate]
        rcases m.generate r.state with ⟨_ | _ | a, s⟩ <;> rfl
      | reset => simp only [call, h.reset]
      | close => simp only [call, h.close]
    have hrest := ih (m.call r c)
    rw [← hcall] at hrest
    exact hrest

theorem EachPass.embed {s : σ} {answer : Nat → Option α} (hs : m.EachPass s answer)
    (h : m.Embeds M wrap) (hphase : ∀ s, M.phase (wrap s) = m.phase s) :
    M.EachPass (wrap s) answer := by
  intro calls streams
  have hrun : M.run calls (.start (wrap s) streams) = _ := h.run calls (.start s streams)
  rw [hrun]
  dsimp only
  simp only [h.init, h.reset, hphase]
  obtain ⟨hinit, hreset⟩ := hs calls streams
  exact ⟨fun hcreated context => ⟨(hinit hcreated context).1, (hinit hcreated context).2.embed h⟩,
    fun hopen => ⟨(hreset hopen).1, (hreset hopen).2.embed h⟩⟩

/-- A value that some call of `generate` hands out gets into the pass. -/
theorem mem_pass_of_answer {k : Nat} {a : α} {r : Run σ α}
    (h : m.answer k r.state = .ok (some a)) :
    a ∈ (m.run (List.replicate (k + 1) .generate) r).pass := by
  induction k generalizing r with
  | zero =>
    have hgenerate : m.generate r.state = (.ok (some a), (m.generate r.state).2) := Prod.ext h rfl
    show a ∈ (m.call r .generate).pass
    rw [call, hgenerate]
    exact List.mem_cons_self
  | succ k ih =>
    rw [answer_succ, ← (call_generate r).1] at h
    exact ih h

end Machine

/-! ## Grids -/

namespace Grid

variable {owner : String} {spec : Spec} {w : Walk} {index : Nat → Option Nat} {g : Grid Walk}

/-- A grid at the beginning of a pass. -/
def begun (spec : Spec) (w : Walk) (rng : Rng) : Grid Walk :=
  ⟨spec, w.rewind spec, some rng, .running⟩

theorem after_begun (k : Nat) (rng : Rng) :
    (machine owner Walk.kind).after k (begun spec w rng) =
      ⟨spec, ((w.rewind spec).afterSteps rng k).1, some ((w.rewind spec).afterSteps rng k).2,
        .running⟩ := by
  induction k with
  | zero => rfl
  | succ k ih =>
    rw [Machine.after, ih]
    rfl

/-- A grid hands out the points at the indices that its walk finds. -/
theorem replies_begun (hgoes : (w.rewind spec).Goes index) (rng : Rng) :
    (machine owner Walk.kind).Replies (begun spec w rng) fun k => (index k).map spec.valueAt := by
  intro k
  dsimp only
  rw [Machine.answer, after_begun, ← hgoes rng k]
  rfl

/-- Where a grid is in its life: new, some steps into a pass, or closed. -/
inductive Stage (spec : Spec) (w : Walk) : Grid Walk → Prop where
  | new : Stage spec w (.new spec w)
  | passing (k : Nat) (rng rng' : Rng) :
    Stage spec w ⟨spec, ((w.rewind spec).afterSteps rng k).1, some rng', .running⟩
  | closed (spec' : Spec) (walk : Walk) (rng : Option Rng) :
    Stage spec w ⟨spec', walk, rng, .closed⟩

theorem Stage.begun (rng : Rng) : Stage spec w (begun spec w rng) :=
  .passing 0 rng rng

section

variable (hv : spec.validate = .ok ())

include hv

theorem Stage.init (hg : Stage spec w g) (hcreated : g.phase = .created) (context : Context)
    (streams : Streams) : ∃ rng streams',
      (machine owner Walk.kind).init context g streams =
        (.ok (), Grid.begun spec w rng, streams') := by
  cases hg with
  | new => exact ⟨_, _, init_new hv owner w context streams⟩
  | passing _ _ _ | closed _ _ _ => cases hcreated

variable (hw : w.Drawless)

include hw

/-- A new grid that is reset is initialized, with a context of its own. -/
theorem Stage.reset (hg : Stage spec w g) (hopen : g.phase ≠ .closed) (streams : Streams) :
    ∃ rng streams', (machine owner Walk.kind).reset g streams =
      (.ok (), Grid.begun spec w rng, streams') := by
  cases hg with
  | new => exact Stage.init hv .new rfl streams.defaultContext.1 streams.defaultContext.2
  | passing k rng rng' =>
    have hrewind : (((w.rewind spec).afterSteps rng k).1).rewind spec = w.rewind spec :=
      (hw.rewind.rewind_afterSteps rng k).trans hw.rewind_rewind
    refine ⟨rng', streams, ?_⟩
    simp only [machine, Walk.kind, hrewind, Grid.begun]
  | closed _ _ _ => exact absurd rfl hopen

/-- **No call leaves these stages, and every number is the point of some step.** -/
theorem yields (hgoes : (w.rewind spec).Goes index) :
    (machine owner Walk.kind).Yields (Stage spec w)
      fun n => ∃ k i, index k = some i ∧ n = spec.valueAt i where
  init := by
    intro context g streams hg
    by_cases hcreated : g.phase = .created
    · obtain ⟨rng, streams', hinit⟩ := hg.init hv hcreated context streams
      rw [hinit]
      exact .begun rng
    · cases hg with
      | new => exact absurd rfl hcreated
      | passing k rng rng' => exact .passing k rng rng'
      | closed spec' walk rng => exact .closed spec' walk rng
  generate := by
    intro g hg
    cases hg with
    | new => exact .new
    | passing k rng rng' =>
      have hwalk : (((w.rewind spec).afterSteps rng k).1).Drawless := hw.rewind.afterSteps rng k
      have hnext := hwalk.next_eq rng' ((w.rewind spec).afterSteps rng k).2
      have hstage : Stage spec w ⟨spec, ((w.rewind spec).afterSteps rng (k + 1)).1,
          some (((w.rewind spec).afterSteps rng k).1.next rng').2.2, .running⟩ := .passing _ _ _
      rw [Walk.afterSteps, ← hnext.2] at hstage
      exact hstage
    | closed spec' walk rng => exact .closed spec' walk rng
  reset := by
    intro g streams hg
    by_cases hopen : g.phase = .closed
    · cases hg with
      | new | passing _ _ _ => cases hopen
      | closed spec' walk rng => exact .closed spec' walk rng
    · obtain ⟨rng, streams', hreset⟩ := hg.reset hv hw hopen streams
      rw [hreset]
      exact .begun rng
  close := fun _ _ => .closed _ _ _
  good := by
    intro g n hg h
    have hemits := generate_emits owner g
    rw [h] at hemits
    obtain ⟨rng', i, hrunning, hi, rfl, -⟩ := hemits.eq_of_some
    cases hg with
    | new | closed _ _ _ => cases hrunning
    | passing k rng _ =>
      refine ⟨k, i, ?_, rfl⟩
      rw [← hgoes rng k, ← ((hw.rewind.afterSteps rng k).next_eq rng' _).1]
      exact hi

/-- **Every pass of a grid has the points that its walk finds**, if the walk draws nothing. -/
theorem eachPass (hgoes : (w.rewind spec).Goes index) :
    (machine owner Walk.kind).EachPass (.new spec w) fun k => (index k).map spec.valueAt := by
  intro calls streams r
  have hstage : Stage spec w r.state :=
    (yields hv hw hgoes).toKeeps.run (r := .start (.new spec w) streams) .new calls
  refine ⟨fun hcreated context => ?_, fun hopen => ?_⟩
  · obtain ⟨rng, streams', hinit⟩ := hstage.init hv hcreated context r.streams
    rw [hinit]
    exact ⟨rfl, replies_begun hgoes rng⟩
  · obtain ⟨rng, streams', hreset⟩ := hstage.reset hv hw hopen r.streams
    rw [hreset]
    exact ⟨rfl, replies_begun hgoes rng⟩

/-- What can be handed out are the points that the walk finds. -/
theorem mem_pass_iff (hgoes : (w.rewind spec).Goes index) (streams : Streams) {n : Number} :
    (∃ calls, n ∈ ((machine owner Walk.kind).run calls (.start (.new spec w) streams)).pass) ↔
      ∃ k i, index k = some i ∧ n = spec.valueAt i := by
  constructor
  · rintro ⟨calls, hn⟩
    exact (yields hv hw hgoes).pass .new streams calls n hn
  · rintro ⟨k, i, hi, rfl⟩
    refine ⟨.init ⟨{}, 0⟩ :: List.replicate (k + 1) .generate, Machine.mem_pass_of_answer ?_⟩
    obtain ⟨rng, streams', hinit⟩ : ∃ rng streams',
        (machine owner Walk.kind).init ⟨{}, 0⟩ (.new spec w) streams =
          (.ok (), begun spec w rng, streams') := Stage.init hv .new rfl ⟨{}, 0⟩ streams
    have hstate : ((machine owner Walk.kind).call (.start (.new spec w) streams)
        (.init ⟨{}, 0⟩)).state = begun spec w rng := by
      simp only [Machine.call, Run.start, hinit]
    rw [hstate, replies_begun hgoes rng k]
    simp only [hi, Option.map_some]

end

end Grid

namespace NumberGen

variable {spec : Spec} {w : Walk} {index : Nat → Option Nat}

/-- **Every pass of such numbers is the same.** -/
theorem eachPass_grid (owner : String) (hv : spec.validate = .ok ()) (hw : w.Drawless)
    (hgoes : (w.rewind spec).Goes index) :
    machine.EachPass (.grid owner (.new spec w)) fun k => (index k).map spec.valueAt :=
  (Grid.eachPass hv hw hgoes).embed (embeds_grid owner) fun _ => rfl

/-- **What can be handed out** are the points that the walk finds. -/
theorem mem_pass_iff (owner : String) (hv : spec.validate = .ok ()) (hw : w.Drawless)
    (hgoes : (w.rewind spec).Goes index) (streams : Streams) {n : Number} :
    (∃ calls, n ∈ (machine.run calls (.start (.grid owner (.new spec w)) streams)).pass) ↔
      ∃ k i, index k = some i ∧ n = spec.valueAt i := by
  have hpass (calls : List Machine.Call) :
      (machine.run calls (.start (.grid owner (.new spec w)) streams)).pass =
        ((Grid.machine owner Walk.kind).run calls (.start (.new spec w) streams)).pass :=
    congrArg (·.pass) ((embeds_grid owner).run calls (.start (.new spec w) streams))
  simp only [hpass]
  exact Grid.mem_pass_iff hv hw hgoes streams

end NumberGen
end SynthData
