import SynthData.Proofs.Strategy.Numbers
import SynthData.Strategy.Named

/-!
# Strategies that names stand for

`Strategy.Ranged` holds of the strategies that depend on a range.  All strategies
do for which names stand: those that are made when they are named
(`ofCall_ranged` and the lemmas next to it), and those that are registered from
the start (`builtins_ranged`).
-/
namespace SynthData

theorem of_bind_eq_ok {α β : Type} {x : Except Fault α} {f : α → Except Fault β} {b : β}
    (h : x >>= f = .ok b) : ∃ a, x = .ok a ∧ f a = .ok b := by
  cases x with
  | error fault => cases h
  | ok a => exact ⟨a, rfl, h⟩

theorem of_map_eq_ok {α β : Type*} {x : Except Fault α} {f : α → β} {b : β}
    (h : x.map f = .ok b) : ∃ a, x = .ok a ∧ f a = b := by
  cases x with
  | error fault => cases h
  | ok a => exact ⟨a, rfl, Except.ok.inj h⟩

/-! ## Strategies with parameters -/

namespace Strategy

variable {s : Strategy}

theorem ofStride_ranged {stride : UInt64} (h : ofStride stride = .ok s) : s.Ranged := by
  unfold ofStride at h
  split at h
  · cases h
  · cases h
    intro list hfixed
    cases hfixed

theorem ofSize_ranged {size : UInt64} (h : ofSize size = .ok s) : s.Ranged := by
  unfold ofSize at h
  split at h
  · cases h
  · cases h
    intro list hfixed
    cases hfixed

theorem ofDraws_ranged {draws : UInt32} (h : ofDraws draws = .ok s) : s.Ranged := by
  unfold ofDraws at h
  split at h
  · cases h
  · cases h
    intro list hfixed
    cases hfixed

theorem ofSteps_ranged {least most : Int64} {initial : Option Float}
    (h : ofSteps least most initial = .ok s) : s.Ranged := by
  unfold ofSteps at h
  split at h
  · cases h
    intro list hfixed
    cases hfixed
  · cases h

theorem drawCount_ranged {x : Float} (h : drawCount x = .ok s) : s.Ranged := by
  obtain ⟨n, -, h⟩ := of_bind_eq_ok h
  split at h
  · exact ofDraws_ranged h
  · cases h

theorem ofCall_ranged {text : String} (h : ofCall text = .ok s) : s.Ranged := by
  obtain ⟨call, -, h⟩ := of_bind_eq_ok h
  -- one case for each name and number of parameters
  split at h
  · obtain ⟨delta, -, h⟩ := of_bind_eq_ok h
    cases h
    exact fun _ => nofun
  · obtain ⟨delta, -, h⟩ := of_bind_eq_ok h
    cases h
    exact fun _ => nofun
  · obtain ⟨delta, -, h⟩ := of_bind_eq_ok h
    cases h
    exact fun _ => nofun
  · obtain ⟨stride, -, h⟩ := of_bind_eq_ok h
    exact ofStride_ranged h
  · obtain ⟨size, -, h⟩ := of_bind_eq_ok h
    exact ofSize_ranged h
  · obtain ⟨size, -, h⟩ := of_bind_eq_ok h
    exact ofSize_ranged h
  · obtain ⟨least, -, h⟩ := of_bind_eq_ok h
    obtain ⟨most, -, h⟩ := of_bind_eq_ok h
    exact ofSteps_ranged h
  · obtain ⟨least, -, h⟩ := of_bind_eq_ok h
    obtain ⟨most, -, h⟩ := of_bind_eq_ok h
    exact ofSteps_ranged h
  · exact drawCount_ranged h
  · obtain ⟨pool, -, h⟩ := of_bind_eq_ok h
    cases h
    exact fun _ => nofun
  · obtain ⟨pool, -, h⟩ := of_bind_eq_ok h
    cases h
    exact fun _ => nofun
  · cases h

theorem ofWeightCall_ranged {text : String} (h : ofWeightCall text = .ok s) : s.Ranged := by
  obtain ⟨call, -, h⟩ := of_bind_eq_ok h
  split at h
  · cases h
    exact fun _ => nofun
  · cases h
    exact fun _ => nofun
  · cases h
    exact fun _ => nofun
  · obtain ⟨function, -, h⟩ := of_bind_eq_ok h
    cases h
    exact fun _ => nofun
  · cases h
    exact fun _ => nofun
  · cases h

theorem ofCumulativeCall_ranged {text : String} (h : ofCumulativeCall text = .ok s) :
    s.Ranged := by
  obtain ⟨call, -, h⟩ := of_bind_eq_ok h
  split at h
  · obtain ⟨function, -, h⟩ := of_bind_eq_ok h
    cases h
    exact fun _ => nofun
  · obtain ⟨function, -, h⟩ := of_bind_eq_ok h
    cases h
    exact fun _ => nofun
  · cases h

theorem ofFeature_ranged {feature : String} (h : ofFeature feature = .ok s) : s.Ranged := by
  unfold ofFeature at h
  dsimp only at h
  split at h
  · cases h
  · cases h
    exact fun _ => nofun

end Strategy

/-! ## Registered strategies -/

namespace Registry

/-- All registered strategies depend on a range. -/
def Ranged (r : Registry) : Prop := ∀ name entry, (name, entry) ∈ r.entries → entry.strategy.Ranged

theorem mem_insertEntry {name name' : String} {entry entry' : Entry}
    {entries : List (String × Entry)} (h : (name', entry') ∈ insertEntry name entry entries) :
    entry' = entry ∨ (name', entry') ∈ entries := by
  induction entries with
  | nil => exact Or.inl (Prod.mk.inj (List.mem_singleton.mp h)).2
  | cons head rest ih =>
    unfold insertEntry at h
    split at h
    · rcases List.mem_cons.mp h with h | h
      · exact Or.inl (Prod.mk.inj h).2
      · exact Or.inr (List.mem_cons_of_mem _ h)
    · split at h
      · rcases List.mem_cons.mp h with h | h
        · exact Or.inl (Prod.mk.inj h).2
        · exact Or.inr h
      · rcases List.mem_cons.mp h with h | h
        · exact Or.inr (h ▸ List.mem_cons_self)
        · exact (ih h).imp_right (List.mem_cons_of_mem _)

theorem Ranged.register {r : Registry} (hr : r.Ranged) (name : String) {s : Strategy}
    (hs : s.Ranged) : (r.register name s).Ranged := by
  intro name' entry h
  rcases mem_insertEntry h with rfl | h
  · exact hs
  · exact hr name' entry h

theorem Ranged.share {r : Registry} (hr : r.Ranged) (name : String) {entry : Entry}
    (he : entry.strategy.Ranged) : (r.share name entry).Ranged := by
  intro name' entry' h
  rcases mem_insertEntry h with rfl | h
  · exact he
  · exact hr name' entry' h

theorem Ranged.find? {r : Registry} (hr : r.Ranged) {name : String} {entry : Entry}
    (h : r.find? name = some entry) : entry.strategy.Ranged := by
  obtain ⟨⟨name', entry'⟩, hfind, rfl⟩ := Option.map_eq_some_iff.mp h
  exact hr name' entry' (List.mem_of_find?_eq_some hfind)

theorem Ranged.registerAll {r : Registry} (hr : r.Ranged) (list : List (String × Strategy))
    (hlist : ∀ entry ∈ list, entry.2.Ranged) :
    (list.foldl (fun r entry => r.register entry.1 entry.2) r).Ranged := by
  induction list generalizing r with
  | nil => exact hr
  | cons head list ih =>
    exact ih (hr.register head.1 (hlist head List.mem_cons_self))
      (fun entry h => hlist entry (List.mem_cons_of_mem _ h))

theorem builtIn_ranged : ∀ entry ∈ builtIn, entry.2.Ranged := by
  simp only [builtIn, List.forall_mem_cons]
  exact ⟨fun _ => nofun, fun _ => nofun, fun _ => nofun, fun _ => nofun, fun _ => nofun,
    fun _ => nofun, fun _ => nofun, fun _ => nofun, fun _ => nofun, fun _ => nofun,
    fun _ => nofun, fun _ => nofun, nofun⟩

theorem builtins_ranged : builtins.Ranged := by
  have hr := Ranged.registerAll (r := empty) (fun _ _ h => by cases h) builtIn builtIn_ranged
  unfold builtins
  dsimp only
  split
  · rename_i entry hentry
    exact hr.share "single" (hr.find? hentry)
  · exact hr

theorem Ranged.resolve {r : Registry} (hr : r.Ranged) {name : String} {resolved : Resolved}
    (h : r.resolve name = .ok resolved) : resolved.strategy.Ranged := by
  unfold Registry.resolve at h
  dsimp only at h
  -- the three prefixes come first, then calls, then registered names
  split at h
  · obtain ⟨s, hs, rfl⟩ := of_map_eq_ok h
    exact Strategy.ofWeightCall_ranged hs
  · split at h
    · obtain ⟨s, hs, rfl⟩ := of_map_eq_ok h
      exact Strategy.ofCumulativeCall_ranged hs
    · split at h
      · obtain ⟨s, hs, rfl⟩ := of_map_eq_ok h
        exact Strategy.ofFeature_ranged hs
      · split at h
        · obtain ⟨s, hs, rfl⟩ := of_map_eq_ok h
          exact Strategy.ofCall_ranged hs
        · obtain ⟨entry, hentry, rfl⟩ := of_map_eq_ok h
          unfold Registry.get at hentry
          split at hentry
          · rename_i entry' hfind
            obtain rfl := Except.ok.inj hentry
            exact hr.find? hfind
          · cases hentry

/-- **A name stands for a strategy that depends on a range**, if all registered
strategies do. -/
theorem Ranged.strategy {r : Registry} (hr : r.Ranged) {name : String} {s : Strategy}
    (h : r.strategy name = .ok s) : s.Ranged := by
  obtain ⟨resolved, hresolved, rfl⟩ := of_map_eq_ok h
  exact hr.resolve hresolved

/-- Whether a name has no blanks around it, no parameters and none of the
prefixes with a meaning of their own. -/
def IsPlain (cs : List Char) : Prop :=
  Text.trimChars cs = cs ∧ Text.afterStart? "weight:".toList cs = none ∧
    Text.afterStart? "cdf:".toList cs = none ∧ Text.afterStart? "feature:".toList cs = none ∧
    cs.contains '(' = false

instance (cs : List Char) : Decidable (IsPlain cs) :=
  inferInstanceAs (Decidable (_ ∧ _ ∧ _ ∧ _ ∧ _))

/-- A plain name stands for what is registered under it. -/
theorem strategy_of_find? {r : Registry} {name : String} {entry : Entry}
    (hplain : IsPlain name.toList) (hfind : r.find? name = some entry) :
    r.strategy name = .ok entry.strategy := by
  obtain ⟨htrim, hweight, hcdf, hfeature, hcall⟩ := hplain
  simp only [Registry.strategy, resolve, htrim, hweight, hcdf, hfeature, hcall,
    String.ofList_toList, get, hfind]
  rfl

/-- The name `shuffle` stands for strides of two points. -/
theorem builtins_shuffle : builtins.strategy "shuffle" = .ok plainShuffle := by
  have hfind : builtins.find? "shuffle" = some ⟨1, plainShuffle⟩ := rfl
  exact strategy_of_find? (by decide) hfind

/-- The name `cumulated` stands for means of five draws. -/
theorem builtins_cumulated : builtins.strategy "cumulated" = .ok plainCumulated := by
  have hfind : builtins.find? "cumulated" = some ⟨2, plainCumulated⟩ := rfl
  exact strategy_of_find? (by decide) hfind

end Registry
end SynthData
