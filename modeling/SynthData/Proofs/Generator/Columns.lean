import SynthData.Field.Basic
import SynthData.Proofs.Depletion.Several
import SynthData.Proofs.Generator.Pass
import SynthData.Proofs.Value.Basic

/-!
# The columns of a record

The fields of a record take their streams from one context and are asked in turn.  Still each of
them is a **column** of its own: it begins with the streams that the fields before it have left
(`FieldList.begun`), and from then on it is asked once for every record, whatever the others do.

A record is a row of its columns (`Fields.generate_row`), and a row that is complete leaves every
column one position further on (`Fields.columns_generate`).  So the records are the columns side
by side, up to the first position at which a column has no value (`FieldList.zips_columns`).
-/
namespace SynthData

/-! ## Generators by themselves -/

namespace Producer

variable {α : Type} (p : Producer α)

/-- The generator after it has been initialized. -/
def begun (context : Context) (streams : Streams) : Producer α :=
  ⟨p.State, p.machine, (p.machine.init context p.state streams).2.1⟩

/-- The generator after a number of calls of `generate`. -/
def after (n : Nat) : Producer α := ⟨p.State, p.machine, p.machine.after n p.state⟩

/-- The answer to the call of `generate` that comes after `n` others. -/
def answer (n : Nat) : Except Fault (Option α) := p.machine.answer n p.state

/-- There is a value at a position. -/
def Gives (n : Nat) : Prop := ∃ v, p.answer n = .ok (some v)

/-- There is a value at each of the first positions. -/
def Lasts (n : Nat) : Prop := ∀ k < n, p.Gives k

variable {p}

theorem lasts_succ {n : Nat} : p.Lasts (n + 1) ↔ p.Lasts n ∧ p.Gives n :=
  Nat.forall_lt_succ_right

end Producer

/-! ## Rows -/

/-- A field of a record that has been initialized. -/
abbrev Column := String × Producer Value

namespace Column

/-- The values of the columns at a position, up to the first column that has none. -/
def row (n : Nat) : List Column → Except Fault (Option (List (String × Value)))
  | [] => .ok (some [])
  | (name, p) :: rest =>
    match p.answer n with
    | .error fault => .error fault
    | .ok none => .ok none
    | .ok (some v) =>
      match row n rest with
      | .error fault => .error fault
      | .ok none => .ok none
      | .ok (some entries) => .ok (some ((name, v) :: entries))

/-- The columns after a number of rows. -/
def after (n : Nat) (columns : List Column) : List Column :=
  columns.map fun column => (column.1, column.2.after n)

variable {n : Nat} {columns : List Column}

theorem row_after (n : Nat) (columns : List Column) : row 0 (after n columns) = row n columns := by
  induction columns with
  | nil => rfl
  | cons column rest ih =>
    obtain ⟨name, p⟩ := column
    show row 0 ((name, p.after n) :: after n rest) = _
    rw [row, row, ih]
    rfl

/-- **A row is complete if every column gives its value.** -/
theorem row_eq_some {entries : List (String × Value)} : row n columns = .ok (some entries) ↔
    List.Forall₂ (fun column entry => column.1 = entry.1 ∧ column.2.answer n = .ok (some entry.2))
      columns entries := by
  induction columns generalizing entries with
  | nil =>
    rw [row, List.forall₂_nil_left_iff]
    simp [eq_comm]
  | cons column rest ih =>
    obtain ⟨name, p⟩ := column
    rw [List.forall₂_cons_left_iff, row]
    rcases p.answer n with fault | _ | v
    · simp
    · simp
    · simp only [← ih]
      rcases row n rest with fault | _ | entries'
      · simp
      · simp
      · constructor
        · intro h
          obtain rfl := Option.some.inj (Except.ok.inj h)
          exact ⟨(name, v), entries', ⟨rfl, rfl⟩, rfl, rfl⟩
        · rintro ⟨_, _, ⟨rfl, hv⟩, hentries, rfl⟩
          obtain rfl := Option.some.inj (Except.ok.inj hv)
          obtain rfl := Option.some.inj (Except.ok.inj hentries)
          rfl

theorem gives_of_row {entries : List (String × Value)} (h : row n columns = .ok (some entries)) :
    ∀ column ∈ columns, column.2.Gives n := by
  rw [row_eq_some] at h
  induction h with
  | nil => nofun
  | cons hhead _ ih => exact List.forall_mem_cons.mpr ⟨⟨_, hhead.2⟩, ih⟩

theorem row_of_gives (h : ∀ column ∈ columns, column.2.Gives n) :
    ∃ entries, row n columns = .ok (some entries) := by
  induction columns with
  | nil => exact ⟨[], rfl⟩
  | cons column rest ih =>
    obtain ⟨name, p⟩ := column
    obtain ⟨⟨v, hv⟩, hrest⟩ := List.forall_mem_cons.mp h
    obtain ⟨entries, hentries⟩ := ih hrest
    exact ⟨(name, v) :: entries, by simp only [row, hv, hentries]⟩

/-- **A row ends at the first column that has no value**, in the way that the column ends. -/
theorem row_of_end {before rest : List Column} {name : String} {p : Producer Value}
    (hbefore : ∀ column ∈ before, column.2.Gives n) (hp : ¬ p.Gives n) :
    (row n (before ++ (name, p) :: rest)).map (·.map Value.ofEntries) = p.answer n := by
  induction before with
  | nil =>
    rw [List.nil_append, row]
    rcases hanswer : p.answer n with fault | _ | v
    · rfl
    · rfl
    · exact absurd ⟨v, hanswer⟩ hp
  | cons column before ih =>
    obtain ⟨name', p'⟩ := column
    obtain ⟨⟨v, hv⟩, hrest⟩ := List.forall_mem_cons.mp hbefore
    have hend := ih hrest
    simp only [List.cons_append, row, hv]
    rcases hrow : row n (before ++ (name, p) :: rest) with fault | _ | entries
    all_goals rw [hrow] at hend
    · exact hend
    · exact hend
    · exact absurd ⟨_, hend.symm⟩ hp

theorem map_fst_row {entries : List (String × Value)} (h : row n columns = .ok (some entries)) :
    entries.map Prod.fst = columns.map Prod.fst := by
  rw [row_eq_some] at h
  induction h with
  | nil => rfl
  | cons hhead _ ih => rw [List.map_cons, List.map_cons, hhead.1, ih]

/-- A complete row has the values of its columns and no others. -/
theorem mem_row {entries : List (String × Value)} (h : row n columns = .ok (some entries))
    (name : String) (v : Value) :
    (name, v) ∈ entries ↔ ∃ p, (name, p) ∈ columns ∧ p.answer n = .ok (some v) := by
  rw [row_eq_some] at h
  induction h with
  | nil => simp
  | @cons column entry _ _ hhead _ ih =>
    obtain ⟨name', p'⟩ := column
    obtain ⟨_, v'⟩ := entry
    obtain ⟨rfl, hv⟩ := hhead
    have hfirst : name = name' ∧ v = v' ↔
        ∃ p, (name = name' ∧ p = p') ∧ p.answer n = .ok (some v) := by
      constructor
      · rintro ⟨rfl, rfl⟩
        exact ⟨p', ⟨rfl, rfl⟩, hv⟩
      · rintro ⟨p, ⟨rfl, rfl⟩, hp⟩
        exact ⟨rfl, Option.some.inj (Except.ok.inj (hp.symm.trans hv))⟩
    simp only [List.mem_cons, Prod.mk.injEq, or_and_right, exists_or, ih, hfirst]

/-- **The record of a complete row has under each name the value of its column.** -/
theorem field?_row {entries : List (String × Value)} (h : row n columns = .ok (some entries))
    (hnames : (columns.map Prod.fst).Nodup) (name : String) (v : Value) :
    (Value.ofEntries entries).field? name = some v ↔
      ∃ p, (name, p) ∈ columns ∧ p.answer n = .ok (some v) := by
  rw [← map_fst_row h] at hnames
  rw [Value.field?_ofEntries hnames, mem_row h]

end Column

/-! ## Records as rows -/

namespace Fields

/-- The fields of a record as generators by themselves. -/
def columns : {σ : Type} → Fields σ → σ → List Column
  | _, nil, _ => []
  | _, cons name m rest, (s, states) => (name, ⟨_, m, s⟩) :: rest.columns states

/-- **A record is a row of its columns.** -/
theorem generate_row {σ : Type} (fields : Fields σ) (states : σ) :
    (fields.generate states).1 = Column.row 0 (fields.columns states) := by
  induction fields with
  | nil => rfl
  | cons name m rest ih =>
    obtain ⟨s, states⟩ := states
    simp only [generate, columns, Column.row, Producer.answer, Machine.answer, Machine.after, ← ih]
    rcases m.generate s with ⟨fault | _ | v, s'⟩
    · rfl
    · rfl
    · rcases rest.generate states with ⟨fault | _ | entries, states'⟩
      · rfl
      · rfl
      · rfl

/-- **A complete row leaves every column one position further on.** -/
theorem columns_generate {σ : Type} (fields : Fields σ) {states : σ}
    (h : ∀ column ∈ fields.columns states, column.2.Gives 0) :
    fields.columns (fields.generate states).2 = Column.after 1 (fields.columns states) := by
  induction fields with
  | nil => rfl
  | cons name m rest ih =>
    obtain ⟨s, states⟩ := states
    obtain ⟨⟨v, hv⟩, hrest⟩ := List.forall_mem_cons.mp h
    obtain ⟨entries, hentries⟩ := Column.row_of_gives hrest
    have hlater := ih hrest
    rw [← generate_row] at hentries
    have hv : (m.generate s).1 = .ok (some v) := hv
    have hnext : (Producer.mk _ m s).after 1 = ⟨_, m, (m.generate s).2⟩ := rfl
    show columns _ (generate _ _).2 = (name, Producer.after _ 1) :: Column.after 1 _
    rcases hfirst : m.generate s with ⟨answer, s'⟩
    rcases hrow : rest.generate states with ⟨row, states'⟩
    rw [hfirst] at hv hnext
    rw [hrow] at hentries hlater
    obtain rfl : answer = .ok (some v) := hv
    obtain rfl : row = .ok (some entries) := hentries
    rw [hnext, ← hlater]
    simp only [generate, hfirst, hrow, columns]

end Fields

namespace Record

variable {σ : Type} {fields : Fields σ} {states : σ}

/-- **Records leave their columns alone**: as long as every column has a value, the record has
asked each of them once for every row. -/
theorem after_columns {n : Nat}
    (h : ∀ column ∈ fields.columns states, column.2.Lasts n) :
    ∃ states', (machine fields).after n ⟨states, .running⟩ = ⟨states', .running⟩ ∧
      fields.columns states' = Column.after n (fields.columns states) := by
  induction n with
  | zero => exact ⟨states, rfl, (List.map_id _).symm⟩
  | succ n ih =>
    simp only [Producer.lasts_succ] at h
    obtain ⟨states', hafter, hcolumns⟩ := ih fun column hcolumn => (h column hcolumn).1
    have hgives : ∀ column ∈ fields.columns states', column.2.Gives 0 := by
      rw [hcolumns]
      rintro _ hlater
      obtain ⟨column, hcolumn, rfl⟩ := List.mem_map.mp hlater
      exact (h column hcolumn).2
    refine ⟨(fields.generate states').2, ?_, ?_⟩
    · rw [Machine.after, hafter, generate_running]
    · rw [fields.columns_generate hgives, hcolumns, Column.after, Column.after, List.map_map]
      rfl

/-- The answer to a call of `generate` is the row of the columns at that position. -/
theorem answer_row {n : Nat} (h : ∀ column ∈ fields.columns states, column.2.Lasts n) :
    (machine fields).answer n ⟨states, .running⟩ =
      (Column.row n (fields.columns states)).map (·.map Value.ofEntries) := by
  obtain ⟨states', hafter, hcolumns⟩ := after_columns h
  rw [Machine.answer, hafter, generate_running, Fields.generate_row, hcolumns, Column.row_after]

/-- **A record lasts as long as all of its columns do.** -/
theorem lasts_iff (fields : Fields σ) (states : σ) (n : Nat) :
    (Producer.mk _ (machine fields) ⟨states, .running⟩).Lasts n ↔
      ∀ column ∈ fields.columns states, column.2.Lasts n := by
  induction n with
  | zero => exact ⟨fun _ _ _ => nofun, fun _ => nofun⟩
  | succ n ih =>
    simp only [Producer.lasts_succ, ih, forall_and]
    -- both last so far, so the next answer of the record is the next row of its columns
    refine and_congr_right fun hall => ?_
    rw [Producer.Gives, Producer.answer, answer_row hall]
    constructor
    · rintro ⟨v, hv⟩
      rcases hrow : Column.row n (fields.columns states) with fault | _ | entries
      all_goals rw [hrow] at hv
      · cases hv
      · cases hv
      · exact Column.gives_of_row hrow
    · intro hgives
      obtain ⟨entries, hrow⟩ := Column.row_of_gives hgives
      exact ⟨_, by rw [hrow]; rfl⟩

end Record

namespace FieldList

/-- The fields by themselves, each of them initialized with the streams that the fields before it
have left. -/
def begun (context : Context) : List (String × Producer Value) → Streams → List Column
  | [], _ => []
  | (name, p) :: rest, streams =>
    (name, p.begun context streams) ::
      begun context rest (p.machine.init context p.state streams).2.2

/-- Fields that are initialized together begin as they would by themselves. -/
theorem columns_init {context : Context} {list : List (String × Producer Value)}
    {streams : Streams}
    (h : ((ofList list).fields.init context (ofList list).states streams).1 = .ok ()) :
    (ofList list).fields.columns
        ((ofList list).fields.init context (ofList list).states streams).2.1 =
      begun context list streams := by
  induction list generalizing streams with
  | nil => rfl
  | cons field rest ih =>
    obtain ⟨name, p⟩ := field
    simp only [ofList, Fields.init, begun, Producer.begun] at h ⊢
    rcases hfirst : p.machine.init context p.state streams with ⟨fault | _, s, streams'⟩
    · rw [hfirst] at h
      cases h
    · rw [hfirst] at h
      rw [Fields.columns, ih h]

/-- A record that has been initialized runs over the fields as they begin by themselves. -/
theorem begun_producer {context : Context} {list : List (String × Producer Value)}
    {streams : Streams}
    (h : ((ofList list).producer.machine.init context (ofList list).producer.state streams).1 =
      .ok ()) :
    ∃ states, (ofList list).producer.begun context streams =
        ⟨_, Record.machine (ofList list).fields, ⟨states, .running⟩⟩ ∧
      (ofList list).fields.columns states = begun context list streams := by
  have hcolumns := @columns_init context list streams
  unfold Producer.begun
  simp only [producer, Record.machine, Record.init, Record.new, Phase.requireCreated] at h ⊢
  rcases hinit : (ofList list).fields.init context (ofList list).states streams with
    ⟨fault | _, states, streams'⟩
  all_goals rw [hinit] at h hcolumns
  · cases h
  · exact ⟨states, rfl, hcolumns rfl⟩

theorem map_fst_begun (context : Context) (list : List (String × Producer Value))
    (streams : Streams) : (begun context list streams).map Prod.fst = list.map Prod.fst := by
  induction list generalizing streams with
  | nil => rfl
  | cons field rest ih => rw [begun, List.map_cons, List.map_cons, ih]

/-- **Records are their columns side by side.**  Fields with different names that share no source
are initialized together.  Then there are as many records as every column has values.  If all
columns have a value at the next position, the record there has under each name the value of that
column; otherwise the record ends as the first column does that has no value. -/
theorem zips_columns {list : List (String × Producer Value)} (hnames : (list.map Prod.fst).Nodup)
    {context : Context} {streams : Streams}
    (h : ((ofList list).producer.machine.init context (ofList list).producer.state streams).1 =
      .ok ()) :
    let record := (ofList list).producer.begun context streams
    let columns := begun context list streams
    (∀ n, record.Lasts n ↔ ∀ column ∈ columns, column.2.Lasts n) ∧
      ∀ n, record.Lasts n →
        ((∀ column ∈ columns, column.2.Gives n) →
          ∃ entries, record.answer n = .ok (some (.record entries)) ∧
            ∀ name v, (Value.record entries).field? name = some v ↔
              ∃ p, (name, p) ∈ columns ∧ p.answer n = .ok (some v)) ∧
        ∀ before name p rest, columns = before ++ (name, p) :: rest →
          (∀ column ∈ before, column.2.Gives n) → ¬ p.Gives n → record.answer n = p.answer n := by
  intro record columns
  obtain ⟨states, hstate, hcolumns⟩ : ∃ states,
      record = ⟨_, Record.machine (ofList list).fields, ⟨states, .running⟩⟩ ∧
        (ofList list).fields.columns states = columns := begun_producer h
  have hlasts (n : Nat) : record.Lasts n ↔ ∀ column ∈ columns, column.2.Lasts n := by
    have hiff := Record.lasts_iff (ofList list).fields states n
    rwa [hcolumns, ← hstate] at hiff
  have hanswer (n : Nat) (hn : record.Lasts n) :
      record.answer n = (Column.row n columns).map (·.map Value.ofEntries) := by
    rw [hlasts, ← hcolumns] at hn
    rw [hstate, ← hcolumns]
    exact Record.answer_row hn
  refine ⟨hlasts, fun n hn => ⟨fun hgives => ?complete, ?ended⟩⟩
  case complete =>
    obtain ⟨entries, hrow⟩ := Column.row_of_gives hgives
    refine ⟨_, by rw [hanswer n hn, hrow]; rfl, ?_⟩
    rw [← map_fst_begun context list streams] at hnames
    exact Column.field?_row hrow hnames
  case ended =>
    intro before name p rest hsplit hbefore hp
    rw [hanswer n hn, hsplit]
    exact Column.row_of_end hbefore hp

/-- Two letters next to the ten digits. -/
def letteredDigits : List (String × Producer Value) :=
  [("letter", listProducer [.text "a", .text "b"]),
    ("digit", numberProducer (.grid "WedgeSequence" (.new (.long 0 9 1) (.wedge .new))))]

theorem zips_columns_letteredDigits :
    let context : Context := ⟨{}, 0⟩
    let streams := Streams.start fun _ => .ofSeed 0
    let record := (ofList letteredDigits).producer.begun context streams
    let columns := begun context letteredDigits streams
    (letteredDigits.map Prod.fst).Nodup ∧
      ((ofList letteredDigits).producer.machine.init context
        (ofList letteredDigits).producer.state streams).1 = .ok () ∧
      record.Lasts 2 ∧ record.answer 2 = .ok none ∧
      ∃ entries, record.answer 1 = .ok (some (.record entries)) ∧
        ∀ name v, (Value.record entries).field? name = some v ↔
          ∃ p, (name, p) ∈ columns ∧ p.answer 1 = .ok (some v) := by
  intro context streams record columns
  have hinit : ((ofList letteredDigits).producer.machine.init context
    (ofList letteredDigits).producer.state streams).1 = .ok () := rfl
  obtain ⟨hlasts, hrows⟩ := zips_columns (by decide : (letteredDigits.map Prod.fst).Nodup) hinit
  have hcolumns : ∀ column ∈ columns, column.2.Lasts 2 := by
    refine List.forall_mem_cons.mpr ⟨?_, List.forall_mem_cons.mpr ⟨?_, nofun⟩⟩
    all_goals
      exact Producer.lasts_succ.mpr ⟨Producer.lasts_succ.mpr ⟨fun _ => nofun, _, rfl⟩, _, rfl⟩
  have hrecord : record.Lasts 2 := (hlasts 2).mpr hcolumns
  have hend : ¬ ((letteredDigits.head (by decide)).2.begun context streams).Gives 2 := nofun
  have hfirst : record.Lasts 1 := fun k hk => hrecord k (Nat.lt_succ_of_lt hk)
  exact ⟨by decide, hinit, hrecord, (hrows 2 hrecord).2 [] _ _ _ rfl nofun hend,
    (hrows 1 hfirst).1 fun column hcolumn => hcolumns column hcolumn 1 (by decide)⟩

end FieldList
end SynthData
