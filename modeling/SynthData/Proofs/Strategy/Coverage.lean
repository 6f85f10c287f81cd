import SynthData.Proofs.Generator.Completeness
import SynthData.Proofs.Grid.Coverage
import SynthData.Proofs.Strategy.Named

/-!
# Strategies that hand out all values

A strategy that may repeat nothing need not hand out everything: it may skip values
or stop early.  `Strategy.Exhaustive` holds of those that hand out all values of a
source, in an order of their own, whatever they draw (`applyTo_supplies`).

Most of them sample positions; there the walk over the positions visits all of them
(`arranges`), as it does with the points of any range (`numbers_supplies`).  An expander
reads its source to the end.

The built-in names of exhaustive strategies are among those of `builtins_strategy`, the
ones with parameters those of `ofCall_exhaustive`.
-/
namespace SynthData

namespace Strategy

variable {s : Strategy} {context : Context}

/-- The strategy hands out all values if it may repeat none. -/
def Exhaustive : Strategy → Prop
  | random | shuffle .. | increment | wedge | bitReverse | expand .. => True
  | step delta initial limit => (delta = 1 ∨ delta = -1) ∧ initial = none ∧ limit = none
  | cumulated .. | randomWalk .. | fibonacci | padovan | head .. | weight .. | inverse .. |
    itemWeight _ | fixed _ => False

theorem ne_zero_of_single {delta : Int64} (hdelta : delta = 1 ∨ delta = -1) : delta ≠ 0 := by
  rcases hdelta with rfl | rfl
  · decide
  · decide

theorem Exhaustive.check (hs : s.Exhaustive) (unique : Bool) : s.check unique = .ok () := by
  cases s with
  | step delta initial limit => exact check_step (fun _ => ne_zero_of_single hs.1) initial limit
  | random | shuffle _ _ | increment | wedge | bitReverse | expand _ _ => rfl
  | _ => exact hs.elim

/-- The numbers of an exhaustive strategy other than `expand` come from a walk that visits
all indices. -/
theorem Exhaustive.numbers (hs : s.Exhaustive) (hpool : ∀ pool quota, s ≠ expand pool quota)
    {spec : Spec} (hv : spec.validate = .ok ()) :
    ∃ owner walk, s.numbers spec true = .ok (.grid owner (.new spec walk)) ∧ walk.Full ∧
      ∀ n, walk.Fits n := by
  cases s with
  | random =>
    exact ⟨_, .random (.new true), overGrid_eq_ok.mpr ⟨hv, rfl⟩, rfl, fun _ => trivial⟩
  | shuffle stride positive =>
    have hstride : 0 < stride.toNat :=
      Nat.pos_of_ne_zero fun h => positive (UInt64.toNat_inj.mp h)
    exact ⟨_, .shuffle (.new stride.toNat), overGrid_eq_ok.mpr ⟨hv, rfl⟩, trivial, fun _ => hstride⟩
  | increment =>
    exact ⟨_, .cycle (.new true), overGrid_eq_ok.mpr ⟨hv, rfl⟩, rfl, fun _ => trivial⟩
  | wedge =>
    exact ⟨_, .wedge .new, overGrid_eq_ok.mpr ⟨hv, rfl⟩, trivial, fun _ => trivial⟩
  | bitReverse =>
    exact ⟨_, .bitReverse .new, overGrid_eq_ok.mpr ⟨hv, rfl⟩, trivial, fun _ => trivial⟩
  | expand pool quota => exact absurd rfl (hpool pool quota)
  | step delta initial limit =>
    obtain ⟨hdelta, rfl, rfl⟩ := hs
    exact ⟨NumberGen.stepOwner, .step (.new delta none none),
      numbers_step_new hv fun _ => ne_zero_of_single hdelta, ⟨hdelta, rfl, rfl⟩, fun _ => trivial⟩
  | _ => exact hs.elim

/-- **An exhaustive strategy hands out all points of a range** in every pass, whatever it
draws. -/
theorem Exhaustive.numbers_supplies (hs : s.Exhaustive) {min max granularity : Int64}
    (hv : (Spec.long min max granularity).validate = .ok ())
    (hcount : ∀ i, (Spec.long min max granularity).HasPoint i →
      i < (Spec.long min max granularity).sampleCount) :
    ∃ numbers live, s.numbers (.long min max granularity) true = .ok numbers ∧
      ∀ context, NumberGen.machine.Supplies context (· = numbers) live
        (Grid.Points (.long min max granularity)) := by
  by_cases hpool : ∃ pool quota, s = expand pool quota
  · obtain ⟨pool, quota, rfl⟩ := hpool
    have hfull : (Walk.step (.new 1 none none)).Full := ⟨Or.inl rfl, rfl, rfl⟩
    have hfits (n : Nat) : (Walk.step (.new 1 none none)).Fits n := trivial
    have hnumbers : (expand pool quota).numbers (.long min max granularity) true =
        .ok (.expand true (Expand.clampQuota quota)
          (.new (.new (.long min max granularity) (.step (.new 1 none none))) pool)) := by
      simp only [Strategy.numbers, hv]
    have hexpand (context : Context) :=
      (Expand.supplies (Grid.supplies NumberGen.stepOwner hv hcount (hfits _) hfull context) pool
        (Expand.clampQuota quota)).embed (NumberGen.embeds_expand true _)
    have hpoints (context : Context) := (hexpand context).imp fun _ => Grid.Points.of_perm
    exact ⟨_, _, hnumbers, fun context =>
      (hpoints context).narrow fun g hg => ⟨_, ⟨_, rfl, rfl⟩, hg⟩⟩
  · obtain ⟨owner, walk, hnumbers, hfull, hfits⟩ := hs.numbers (by simpa using hpool) hv
    have hgrid (context : Context) :=
      (Grid.supplies owner hv hcount (hfits _) hfull context).embed (NumberGen.embeds_grid owner)
    exact ⟨_, _, hnumbers, fun context => (hgrid context).narrow fun g hg => ⟨_, rfl, hg⟩⟩

/-- **An exhaustive strategy visits all positions of a list.** -/
theorem Exhaustive.arranges (hs : s.Exhaustive) (context : Context) :
    s.distribution.Arranges context := by
  intro n hlt hn
  have hpos : 0 < n := by omega
  obtain ⟨numbers, live, hnumbers, hsupplies⟩ := hs.numbers_supplies (Spec.validate_indices hn)
    fun _ => Spec.lt_sampleCount_indices hn hpos
  refine ⟨numbers, hnumbers, fun streams => ?_⟩
  obtain ⟨hanswer, -, order, hpoints, horder⟩ := (hsupplies context).init numbers streams rfl
  exact ⟨hanswer, order, horder, hpoints.perm_range hn hpos⟩

/-- **An exhaustive strategy hands out all values of its source**, in some order, as long as
the source is not longer than what may be read in advance. -/
theorem Exhaustive.applyTo_supplies (hs : s.Exhaustive) (source : Producer Value)
    {fresh live : source.State → Prop} {full : List Value → Prop}
    (hsource : source.machine.Supplies context fresh live full) (hfresh : fresh source.state)
    (hsize : ∀ values, full values → values.length ≤ context.settings.cacheSize)
    (hlength : ∀ values, full values → values.length ≤ 2 ^ 63) :
    ∃ p fresh' live', s.applyTo source true = .ok p ∧
      p.machine.Supplies context fresh' live' (fun order => ∃ values, full values ∧
        order.Perm values) ∧ fresh' p.state := by
  by_cases hpool : ∃ pool quota, s = expand pool quota
  · obtain ⟨pool, quota, rfl⟩ := hpool
    exact ⟨_, _, _, rfl, Expand.supplies hsource pool _, _, hfresh, rfl⟩
  · have hpool : ∀ pool quota, s ≠ expand pool quota := by simpa using hpool
    refine ⟨s.sampleBy source true, _, _, ?_,
      Sample.supplies hsource (hs.arranges context) hsize hlength, _, hfresh, rfl⟩
    have hcheck := hs.check true
    cases s with
    | expand pool quota => exact absurd rfl (hpool pool quota)
    | random | shuffle _ _ | increment | wedge | bitReverse | step _ _ _ =>
      simp only [applyTo, hcheck]
    | _ => exact hs.elim

/-! ## By name -/

/-- **Exhaustive strategies with parameters**: strides of any length, pools of any size, and
steps to a neighbour. -/
theorem ofCall_exhaustive {text : String} {call : Call} (hcall : Call.read text = .ok call)
    (hs : ofCall text = .ok s)
    (hname : call.name = "shuffle" ∨ call.name = "expand" ∨
      call.name = "step" ∧ ∃ x delta, call.arguments = [x] ∧ integer x = .ok delta ∧
        (delta = 1 ∨ delta = -1)) : s.Exhaustive := by
  obtain ⟨name, arguments⟩ := call
  obtain ⟨_, hcall', hs⟩ := of_bind_eq_ok hs
  obtain rfl := Except.ok.inj (hcall.symm.trans hcall')
  dsimp only at hs hname
  -- one case for each name and number of parameters
  split at hs
  · obtain ⟨delta, hdelta, hs⟩ := of_bind_eq_ok hs
    obtain ⟨-, x, delta', hx, hdelta', hunit⟩ :=
      (hname.resolve_left (by decide)).resolve_left (by decide)
    obtain ⟨rfl, -⟩ := List.cons.inj hx
    obtain rfl := Except.ok.inj (hdelta.symm.trans hdelta')
    cases hs
    exact ⟨hunit, rfl, rfl⟩
  · simp at hname
  · simp at hname
  · obtain ⟨stride, -, hs⟩ := of_bind_eq_ok hs
    unfold ofStride at hs
    split at hs
    · cases hs
    · cases hs
      trivial
  · simp at hname
  · simp at hname
  · simp at hname
  · simp at hname
  · simp at hname
  · obtain ⟨pool, -, hs⟩ := of_bind_eq_ok hs
    cases hs
    trivial
  · obtain ⟨pool, -, hs⟩ := of_bind_eq_ok hs
    cases hs
    trivial
  · cases hs

end Strategy

namespace Registry

theorem builtins_find? :
    ∀ entry ∈ builtIn, ∃ serial, builtins.find? entry.1 = some ⟨serial, entry.2⟩ := by
  simp only [builtIn, List.forall_mem_cons]
  exact ⟨⟨0, rfl⟩, ⟨1, rfl⟩, ⟨2, rfl⟩, ⟨3, rfl⟩, ⟨4, rfl⟩, ⟨5, rfl⟩, ⟨6, rfl⟩, ⟨7, rfl⟩, ⟨8, rfl⟩,
    ⟨9, rfl⟩, ⟨10, rfl⟩, ⟨11, rfl⟩, by simp⟩

theorem builtIn_isPlain : ∀ entry ∈ builtIn, IsPlain entry.1.toList := by
  decide

/-- **The name of a built-in strategy stands for it.** -/
theorem builtins_strategy {entry : String × Strategy} (h : entry ∈ builtIn) :
    builtins.strategy entry.1 = .ok entry.2 := by
  obtain ⟨serial, hfind⟩ := builtins_find? entry h
  exact strategy_of_find? (builtIn_isPlain entry h) hfind

end Registry
end SynthData
