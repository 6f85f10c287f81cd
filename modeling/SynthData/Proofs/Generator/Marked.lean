import SynthData.Proofs.Generator.Pass

/-!
# Values that carry their positions

Two values of a source may be equal, and what is done with them cannot be told from the values
alone.  `Machine.numbered` is the same source, each of whose values carries its position: the
number of values that came before it in the pass (`stream_numbered`).

The marks are carried along and make no other difference, which `Machine.Projects` says of a
machine and one with more detailed states and values.
-/
namespace SynthData.Machine

variable {σ τ α β : Type}

/-- A machine with states and values that are more detailed than those of another one. -/
structure Projects (M : Machine τ β) (m : Machine σ α) (state : τ → σ) (value : β → α) :
    Prop where
  generate : ∀ t, m.generate (state t) =
    ((M.generate t).1.map (Option.map value), state (M.generate t).2)

/-- The machine whose values carry their positions in the pass. -/
def numbered (m : Machine σ α) : Machine (σ × Nat) (α × Nat) where
  init context s streams :=
    let (answer, source, streams) := m.init context s.1 streams
    (answer, (source, 0), streams)
  generate s :=
    match m.generate s.1 with
    | (.error fault, source) => (.error fault, (source, s.2))
    | (.ok none, source) => (.ok none, (source, s.2))
    | (.ok (some v), source) => (.ok (some (v, s.2)), (source, s.2 + 1))
  reset s streams :=
    let (answer, source, streams) := m.reset s.1 streams
    (answer, (source, 0), streams)
  close s := (m.close s.1, s.2)
  phase s := m.phase s.1
  threadSafe s := m.threadSafe s.1
  parallelizable s := m.parallelizable s.1

variable (m : Machine σ α)

theorem generate_numbered (s : σ) (n : Nat) :
    m.numbered.generate (s, n) =
      ((m.generate s).1.map (Option.map (·, n)),
        ((m.generate s).2, n + (valueOf (m.generate s).1).toList.length)) := by
  rcases h : m.generate s with ⟨_ | _ | v, s'⟩
  all_goals
    simp only [numbered, h]
    rfl

/-- Without the positions it is the machine itself. -/
theorem projects_numbered : m.numbered.Projects m Prod.fst Prod.fst where
  generate := by
    rintro ⟨s, n⟩
    rw [generate_numbered]
    rcases m.generate s with ⟨_ | _ | v, s'⟩
    all_goals rfl

/-- As many values have come as the next position says. -/
theorem after_numbered (s : σ) (n : Nat) :
    m.numbered.after n (s, 0) = (m.after n s, (m.stream n s).length) := by
  induction n with
  | zero => rfl
  | succ n ih =>
    rw [after, ih, generate_numbered, stream_succ, List.length_append]
    rfl

theorem answer_numbered (s : σ) (n : Nat) :
    m.numbered.answer n (s, 0) =
      (m.answer n s).map (Option.map (·, (m.stream n s).length)) := by
  rw [answer, after_numbered, generate_numbered]
  rfl

/-- **The values carry their positions.** -/
theorem stream_numbered (s : σ) (n : Nat) :
    m.numbered.stream n (s, 0) = (m.stream n s).zipIdx := by
  induction n with
  | zero => rfl
  | succ n ih =>
    rw [stream_succ, stream_succ, ih, answer_numbered, List.zipIdx_append]
    rcases m.answer n s with _ | _ | v
    all_goals simp [valueOf, Except.map]

end SynthData.Machine
