import SynthData.Proofs.Generator.Cached
import SynthData.Proofs.Generator.Restart

/-!
# The head of a pass

A head counts the values that it passes on, and asks its source only as long as the count is less
than its size.  So a call either is the same call of the source or comes after the last value that
is wanted (`Head.Course.generate`), and how often the source has been asked is known after any
number of calls.

Whenever a head is initialized or reset, its source is, and the count begins with zero.  The pass of
the head is then the beginning of the pass that its source has begun (`Head.Heads`), whatever has
been called before (`Head.pass_heads`).
-/
namespace SynthData

namespace Machine

variable {σ α : Type} {m : Machine σ α} {s : σ} {k : ℕ}

/-- If all calls hand out a value, there are as many values as calls. -/
theorem length_stream_of_values (h : ∀ i < k, ∃ v, m.answer i s = .ok (some v)) :
    (m.stream k s).length = k := by
  induction k with
  | zero => rfl
  | succ k ih =>
    obtain ⟨v, hv⟩ := h k (Nat.lt_succ_self k)
    rw [stream_succ, hv, List.length_append, ih fun i hi => h i (Nat.lt_succ_of_lt hi)]
    rfl

/-- Later calls add to the values. -/
theorem stream_mono {j : ℕ} (h : j ≤ k) : m.stream j s <+: m.stream k s := by
  obtain ⟨n, rfl⟩ := Nat.exists_eq_add_of_le h
  rw [stream_add]
  exact List.prefix_append _ _

end Machine

namespace Head

open Machine (stream_succ stream_mono length_stream_le le_passLength_iff)

variable {σ α : Type} {m : Machine σ α} {size : ℕ} {s : σ} {k : ℕ} {head : Head σ}

/-! ## One call after the other -/

/-- **A head after `k` calls of a pass** that its source began in the state `s`.  The source has been
asked `asked` times, and before each of them there were fewer values than wanted. -/
structure Course (m : Machine σ α) (size : ℕ) (s : σ) (k asked : ℕ) (head : Head σ) : Prop where
  state : head = ⟨⟨m.after asked s, .running⟩, (m.stream asked s).length⟩
  wanted : ∀ j < asked, (m.stream j s).length < size
  /-- All calls have been passed on, unless enough values have been handed out. -/
  passed : asked = k ∨ asked < k ∧ size ≤ (m.stream asked s).length

theorem Course.length_le {asked : ℕ} (h : Course m size s k asked head) :
    (m.stream asked s).length ≤ size := by
  cases asked with
  | zero => exact Nat.zero_le size
  | succ asked =>
    have hbefore := h.wanted asked (Nat.lt_succ_self asked)
    have hone : (Machine.valueOf (m.answer asked s)).toList.length ≤ 1 := Option.length_toList_le
    rw [stream_succ, List.length_append]
    omega

/-- The values of the source up to its last call are those of all calls, up to the last one that is
wanted. -/
theorem Course.stream_eq {asked : ℕ} (h : Course m size s k asked head) :
    m.stream asked s = (m.stream k s).take size := by
  rcases h.passed with rfl | ⟨hlt, hfull⟩
  · exact (List.take_of_length_le h.length_le).symm
  · have hlength : (m.stream asked s).length = size := h.length_le.antisymm hfull
    exact hlength ▸ List.prefix_iff_eq_take.mp (stream_mono hlt.le)

/-- **A call is passed on to the source, or enough values have been handed out.** -/
theorem Course.generate {asked : ℕ} (h : Course m size s k asked head) :
    (∃ asked', Course m size s (k + 1) asked' ((machine m size).generate head).2) ∧
      ((machine m size).generate head).1 =
        if (m.stream k s).length < size then m.answer k s else .ok none := by
  obtain ⟨rfl, hwanted, hpassed⟩ := h
  by_cases hroom : (m.stream asked s).length < size
  · obtain rfl : asked = k := hpassed.resolve_right fun hfull => by omega
    rw [generate_of_wanted hroom, if_pos hroom]
    refine ⟨⟨asked + 1, ?_, fun j hj => ?_, Or.inl rfl⟩, rfl⟩
    · rw [stream_succ, List.length_append]
      rfl
    · rcases Nat.lt_succ_iff_lt_or_eq.mp hj with hlt | rfl
      · exact hwanted j hlt
      · exact hroom
  · have hle : asked ≤ k := by omega
    have hmore := (stream_mono (m := m) (s := s) hle).length_le
    rw [generate_of_enough (Nat.not_lt.mp hroom), if_neg (by omega)]
    exact ⟨⟨asked, rfl, hwanted, Or.inr ⟨by omega, Nat.not_lt.mp hroom⟩⟩, rfl⟩

/-- A head at the beginning of a pass. -/
theorem course_begun (m : Machine σ α) (size : ℕ) (s : σ) :
    Course m size s 0 0 ⟨⟨s, .running⟩, 0⟩ :=
  ⟨rfl, fun j hj => absurd hj (Nat.not_lt_zero j), Or.inl rfl⟩

/-- **In the course of a pass**, whatever the source answers. -/
theorem course_after (m : Machine σ α) (size : ℕ) (s : σ) (k : ℕ) :
    ∃ asked, Course m size s k asked ((machine m size).after k ⟨⟨s, .running⟩, 0⟩) := by
  induction k with
  | zero => exact ⟨0, course_begun m size s⟩
  | succ k ih =>
    obtain ⟨asked, hcourse⟩ := ih
    exact hcourse.generate.1

theorem answer_begun (m : Machine σ α) (size : ℕ) (s : σ) (k : ℕ) :
    (machine m size).answer k ⟨⟨s, .running⟩, 0⟩ =
      if (m.stream k s).length < size then m.answer k s else .ok none := by
  obtain ⟨asked, hcourse⟩ := course_after m size s k
  exact hcourse.generate.2

theorem stream_begun (m : Machine σ α) (size : ℕ) (s : σ) (k : ℕ) :
    (machine m size).stream k ⟨⟨s, .running⟩, 0⟩ = (m.stream k s).take size := by
  induction k with
  | zero => exact List.take_nil.symm
  | succ k ih =>
    rw [stream_succ, stream_succ, ih, answer_begun, List.take_append]
    by_cases hroom : (m.stream k s).length < size
    · have hone : (Machine.valueOf (m.answer k s)).toList.length ≤ 1 := Option.length_toList_le
      rw [if_pos hroom, List.take_of_length_le hroom.le, List.take_of_length_le (by omega)]
    · rw [if_neg hroom, Nat.sub_eq_zero_of_le (Nat.not_lt.mp hroom), List.take_zero]
      rfl

/-- **The pass has as many values as wanted**, or as the source has, if no call of it fails. -/
theorem passLength_begun (hm : ∀ k fault, m.answer k s ≠ .error fault) :
    (machine m size).passLength ⟨⟨s, .running⟩, 0⟩ = min (size : ℕ∞) (m.passLength s) := by
  refine ENat.eq_of_forall_natCast_le_iff fun n => ?_
  rw [le_min_iff, Nat.cast_le, le_passLength_iff, le_passLength_iff]
  simp only [answer_begun]
  constructor
  · intro h
    have hanswer (i : ℕ) (hi : i < n) :
        (m.stream i s).length < size ∧ m.answer i s ≠ .ok none := by
      have hsome := h i hi
      split at hsome
      · next hroom => exact ⟨hroom, hsome⟩
      · exact absurd rfl hsome
    refine ⟨?_, fun i hi => (hanswer i hi).2⟩
    cases n with
    | zero => exact Nat.zero_le size
    | succ n =>
      -- the calls before the last one have handed out a value each
      have hlength := Machine.length_stream_of_values (m := m) (s := s) (k := n) fun i hi => by
        rcases hvalue : m.answer i s with fault | _ | v
        · exact absurd hvalue (hm i fault)
        · exact absurd hvalue (hanswer i (Nat.lt_succ_of_lt hi)).2
        · exact ⟨v, rfl⟩
      have hroom := (hanswer n (Nat.lt_succ_self n)).1
      omega
  · rintro ⟨hsize, hvalues⟩ i hi
    have hle := length_stream_le (m := m) i s
    rw [if_pos (by omega)]
    exact hvalues i hi

/-! ## Passes -/

/-- **The pass of a head is the beginning of its source's pass.**  The source has begun its pass in
the state `s`, and the head is `begun`. -/
structure Heads (m : Machine σ α) (size : ℕ) (s : σ) (begun : Head σ) : Prop where
  /-- The first calls are those of the source. -/
  first : ∀ k < size, (machine m size).answer k begun = m.answer k s
  /-- Up to the first call without a value there are as many values as wanted, or as there are. -/
  length : (∀ k fault, m.answer k s ≠ .error fault) →
    (machine m size).passLength begun = min (size : ℕ∞) (m.passLength s)
  /-- Whoever has seen the end of the pass sees it again, if that is true of the source. -/
  ended : (∀ k, m.answer k s = .ok none → m.answer (k + 1) s = .ok none) →
    ∀ k, (machine m size).answer k begun = .ok none →
      (machine m size).answer (k + 1) begun = .ok none
  /-- However often the head is called, it hands out the first values of the source in order. -/
  values : ∀ k, (machine m size).stream k begun = (m.stream k s).take size
  /-- It has got no other values from the source, and it has asked only while some were wanted. -/
  reads : ∀ k, ∃ asked ≤ k, ((machine m size).after k begun).wrapped.source = m.after asked s ∧
    m.stream asked s = (machine m size).stream k begun ∧
    (m.stream asked s).length ≤ size ∧ ∀ j < asked, (m.stream j s).length < size

/-- **A pass that begins with the count at zero.** -/
theorem heads_begun (m : Machine σ α) (size : ℕ) (s : σ) :
    Heads m size s ⟨⟨s, .running⟩, 0⟩ where
  first := by
    intro k hk
    have hle := length_stream_le (m := m) k s
    rw [answer_begun, if_pos (by omega)]
  length := passLength_begun
  ended := by
    intro hm k
    rw [answer_begun, answer_begun]
    have hmore := (stream_mono (m := m) (s := s) (Nat.le_add_right k 1)).length_le
    by_cases hroom : (m.stream k s).length < size
    · rw [if_pos hroom]
      intro hnone
      rw [hm k hnone, ite_self]
    · exact fun _ => if_neg (by omega)
  values := stream_begun m size s
  reads := by
    intro k
    obtain ⟨asked, hcourse⟩ := course_after m size s k
    refine ⟨asked, ?_, by rw [hcourse.state], by rw [hcourse.stream_eq, stream_begun],
      hcourse.length_le, hcourse.wanted⟩
    rcases hcourse.passed with rfl | ⟨hlt, -⟩
    · exact Nat.le_refl asked
    · exact hlt.le

/-- **A call that begins a pass** does so by the same call of the source. -/
structure Begins (m : Machine σ α) (size : ℕ) (source : Except Fault Unit × σ × Streams)
    (head : Except Fault Unit × Head σ × Streams) : Prop where
  answer : head.1 = source.1
  heads : source.1 = .ok () → Heads m size source.2.1 head.2.1

theorem Begins.of_error (fault : Fault) (s : σ) (head : Head σ) (streams : Streams) :
    Begins m size (.error fault, s, streams) (.error fault, head, streams) :=
  ⟨rfl, fun h => by cases h⟩

theorem Begins.of_ok (s : σ) (streams : Streams) :
    Begins m size (.ok (), s, streams) (.ok (), ⟨⟨s, .running⟩, 0⟩, streams) :=
  ⟨rfl, fun _ => heads_begun m size s⟩

theorem init_begins (hcreated : head.wrapped.phase = .created) (context : Context)
    (streams : Streams) :
    Begins m size (m.init context head.wrapped.source streams)
      ((machine m size).init context head streams) := by
  obtain ⟨⟨source, _⟩, emitted⟩ := head
  obtain rfl : _ = Phase.created := hcreated
  rcases hinit : m.init context source streams with ⟨fault | _, source', streams'⟩
  · simp only [machine, Wrapped.init, Phase.requireCreated, hinit]
    exact .of_error ..
  · simp only [machine, Wrapped.init, Phase.requireCreated, hinit]
    exact .of_ok ..

/-- A new head that is reset initializes its source, with a context of its own. -/
theorem reset_begins_new (hcreated : head.wrapped.phase = .created) (streams : Streams) :
    Begins m size
      (m.init streams.defaultContext.1 head.wrapped.source streams.defaultContext.2)
      ((machine m size).reset head streams) := by
  obtain ⟨⟨source, _⟩, emitted⟩ := head
  obtain rfl : _ = Phase.created := hcreated
  rcases hinit : m.init streams.defaultContext.1 source streams.defaultContext.2 with
    ⟨fault | _, source', streams'⟩
  · simp only [machine, Wrapped.reset, Wrapped.init, Phase.requireCreated, hinit]
    exact .of_error ..
  · simp only [machine, Wrapped.reset, Wrapped.init, Phase.requireCreated, hinit]
    exact .of_ok ..

theorem reset_begins (hrunning : head.wrapped.phase = .running) (streams : Streams) :
    Begins m size (m.reset head.wrapped.source streams) ((machine m size).reset head streams) := by
  obtain ⟨⟨source, _⟩, emitted⟩ := head
  obtain rfl : _ = Phase.running := hrunning
  rcases hreset : m.reset source streams with ⟨fault | _, source', streams'⟩
  · simp only [machine, Wrapped.reset, hreset]
    exact .of_error ..
  · simp only [machine, Wrapped.reset, hreset]
    exact .of_ok ..

/-- **What a head hands out.**  Over any source and of any size, and after any calls, `init` of a head
that is still new and `reset` of one that is not closed succeed if the same call of the source does.
The pass of the head is then the beginning of the pass that the source has begun: its first values
in their order, as many as wanted or as there are, if the source does not fail, and then no value.
However often the head is called, it asks the source only while values are wanted. -/
theorem pass_heads (m : Machine σ α) (size : ℕ) (source : σ) (streams : Streams)
    (calls : List Machine.Call) :
    let r := (machine m size).run calls (.start (.new source) streams)
    let s := r.state.wrapped.source
    (r.state.wrapped.phase = .created →
      (∀ context, Begins m size (m.init context s r.streams)
        ((machine m size).init context r.state r.streams)) ∧
      Begins m size (m.init r.streams.defaultContext.1 s r.streams.defaultContext.2)
        ((machine m size).reset r.state r.streams)) ∧
    (r.state.wrapped.phase = .running →
      Begins m size (m.reset s r.streams) ((machine m size).reset r.state r.streams)) := by
  intro r s
  exact ⟨fun hcreated => ⟨fun context => init_begins hcreated context r.streams,
    reset_begins_new hcreated r.streams⟩, fun hrunning => reset_begins hrunning r.streams⟩

/-- The numbers from zero on, without end. -/
def endless : Machine (Leaf Iterated) ℕ := Iterated.machine fun _ i => some i

theorem after_endless (pass k : ℕ) :
    endless.after k ⟨⟨pass, 0⟩, .running⟩ = ⟨⟨pass, k⟩, .running⟩ := by
  induction k with
  | zero => rfl
  | succ k ih => rw [Machine.after, ih]; rfl

theorem length_stream_endless (pass k : ℕ) :
    (endless.stream k ⟨⟨pass, 0⟩, .running⟩).length = k :=
  Machine.length_stream_of_values fun i _ => ⟨i, by rw [Machine.answer, after_endless]; rfl⟩

/-- Two of infinitely many numbers: after a reset in the middle of a pass there are two of them
again, and the source is asked only twice for them. -/
theorem pass_heads_endless :
    let streams := Streams.start fun _ => .ofSeed 0
    let r := (machine endless 2).run [.init ⟨{}, 0⟩, .generate] (.start (.new Iterated.new) streams)
    let begun := ((machine endless 2).reset r.state r.streams).2.1
    ∀ k, 2 ≤ k → (machine endless 2).stream k begun = [0, 1] ∧
      ((machine endless 2).after k begun).wrapped.source = ⟨⟨2, 2⟩, .running⟩ := by
  intro streams r begun k hk
  have hheads : Heads endless 2 ⟨⟨2, 0⟩, .running⟩ begun :=
    ((pass_heads endless 2 Iterated.new streams [.init ⟨{}, 0⟩, .generate]).2 rfl).heads rfl
  have hvalues : (machine endless 2).stream k begun = [0, 1] := by
    obtain ⟨n, rfl⟩ := Nat.exists_eq_add_of_le hk
    rw [hheads.values, Machine.stream_add, List.take_left' (length_stream_endless 2 2)]
    rfl
  obtain ⟨asked, -, hsource, hstream, -, -⟩ := hheads.reads k
  have hasked : asked = 2 := by
    rw [← length_stream_endless 2 asked, hstream, hvalues]
    rfl
  exact ⟨hvalues, by rw [hsource, hasked, after_endless]⟩

end Head
end SynthData
