import SynthData.Field.Basic
import SynthData.Proofs.Strategy.Coverage
import SynthData.Proofs.Value.Basic

/-!
# Fields that hand out all listed values

A field of listed values without repetitions hands out each value of its list once in
every pass, whatever is drawn, if its strategy hands out all values of a source
(`values_complete`).  The generator of such a field has four layers: the list, the choice
among its values, the walk over their positions or the pool, and the filter for values
that were there before.  No layer loses a value, and none of them fails.

The filter gives up after too many repeated values in a row.  So the list must have
fewer repeated values than that, however the strategy orders them.
-/
namespace SynthData

variable {s : Strategy} {list : List Value} {context : Context}

/-- The first occurrences in any order of a list are its values without repetitions. -/
theorem Unique.firsts_perm_dedup {order : List Value} (h : order.Perm list) :
    (firsts ∅ order).Perm list.dedup :=
  (List.perm_ext_iff_of_nodup (nodup_firsts ∅ order) list.nodup_dedup).mpr fun v => by
    rw [mem_firsts, List.mem_dedup, h.mem_iff]
    simp

namespace Field

/-- The generator of a list of values without repetitions. -/
theorem ofValues_supplies (hs : s.Exhaustive) (hne : list ≠ [])
    (hcache : list.length ≤ context.settings.cacheSize) (hlength : list.length ≤ 2 ^ 63)
    (hrepeats : list.length - list.dedup.length < Unique.settingsLimit context.settings)
    (name : String) :
    ∃ p fresh live, ofValues name s list true = .ok p ∧ fresh p.state ∧
      p.machine.Supplies context fresh live
        fun order => order.Nodup ∧ ∀ v, v ∈ order ↔ v ∈ list := by
  obtain ⟨p, fresh, live, happly, hp, hfresh⟩ :=
    hs.applyTo_supplies (listProducer list) (Listed.supplies list context) rfl
      (by rintro _ rfl; exact hcache) (by rintro _ rfl; exact hlength)
  have hempty : list.isEmpty = false := by simpa using hne
  refine ⟨uniqueProducer p none, _, _, ?_, ⟨_, hfresh, rfl⟩, (Unique.supplies hp ?_).imp ?_⟩
  · simp [ofValues, hempty, happly]
  · rintro order ⟨values, rfl, hperm⟩
    rw [(Unique.firsts_perm_dedup hperm).length_eq, hperm.length_eq]
    omega
  · rintro _ ⟨order, ⟨values, rfl, hperm⟩, rfl⟩
    have hfirsts := Unique.firsts_perm_dedup hperm
    exact ⟨Unique.nodup_firsts ∅ order, fun v => hfirsts.mem_iff.trans List.mem_dedup⟩

/-- **A field of listed values without repetitions is complete.**  At any time in the course
of a run, what has been handed out in the present pass and what is still to come are the
values of the list, each of them once; after them come no more values.  No call fails.

Positions are numbers of 64 bits with a sign, and no list is longer than there are such
positions. -/
theorem values_complete {r : Registry} (f : Field) (context : Context)
    (hkind : f.kind = .values list) (hunique : f.unique = true) (hs : r.strategy f.strategyName = .ok s)
    (hexhaustive : s.Exhaustive) (hne : list ≠ [])
    (hcache : list.length ≤ context.settings.cacheSize) (hlength : list.length ≤ 2 ^ 63)
    (hrepeats : list.length - list.dedup.length < Unique.settingsLimit context.settings) :
    ∃ p, f.producer r = .ok p ∧ ∀ (streams : Streams) (calls : List Machine.Call),
      (∀ c ∈ calls, c = .generate ∨ c = .reset) →
      let run := p.machine.run (.init context :: calls) (.start p.state streams)
      (p.machine.init context p.state streams).1 = .ok () ∧
        (∀ streams', (p.machine.reset run.state streams').1 = .ok ()) ∧
        ∃ rest, p.machine.HandsOut run.state rest ∧ (run.pass.reverse ++ rest).Nodup ∧
          ∀ v, v ∈ run.pass.reverse ++ rest ↔ v ∈ list := by
  obtain ⟨p, fresh, live, hp, hfresh, hm⟩ :=
    ofValues_supplies hexhaustive hne hcache hlength hrepeats f.name
  refine ⟨p, ?_, fun streams calls hcalls => ?_⟩
  · simp only [producer, hs, hkind, hunique, hp]
  · obtain ⟨hlive, rest, hrest, hnodup, hmem⟩ := hm.run hfresh streams calls hcalls
    exact ⟨(hm.init _ streams hfresh).answer, fun streams' => (hm.reset _ streams' hlive).answer,
      rest, hrest, hnodup, hmem⟩

/-- A red, a green and another red, from both ends to the middle. -/
def hue : Field :=
  ⟨"hue", .values [.text "red", .text "green", .text "red"], some "wedge", true⟩

theorem values_complete_hue :
    ∃ p, hue.producer Registry.builtins = .ok p ∧
      let run := p.machine.run [.init ⟨{}, 0⟩, .generate, .generate, .reset, .generate]
        (.start p.state (.start fun _ => .ofSeed 0))
      (p.machine.init ⟨{}, 0⟩ p.state (.start fun _ => .ofSeed 0)).1 = .ok () ∧
        (∀ streams', (p.machine.reset run.state streams').1 = .ok ()) ∧
        ∃ rest, p.machine.HandsOut run.state rest ∧ (run.pass.reverse ++ rest).Nodup ∧
          ∀ v, v ∈ run.pass.reverse ++ rest ↔
            v ∈ [Value.text "red", .text "green", .text "red"] := by
  have hwedge : Registry.builtins.strategy hue.strategyName = .ok .wedge :=
    Registry.builtins_strategy
      (show ("wedge", .wedge) ∈ Registry.builtIn by simp [Registry.builtIn])
  obtain ⟨p, hp, hcomplete⟩ :=
    values_complete hue ⟨{}, 0⟩ rfl rfl hwedge trivial (List.cons_ne_nil _ _)
      (by decide) (by decide) (Nat.lt_of_le_of_lt (Nat.sub_le _ _) (by decide))
  exact ⟨p, hp, hcomplete _ [.generate, .generate, .reset, .generate] (by simp)⟩

end Field
end SynthData
