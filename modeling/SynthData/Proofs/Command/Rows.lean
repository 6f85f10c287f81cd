import SynthData.Command.Run
import SynthData.Proofs.Field.Deferral
import SynthData.Proofs.Generator.Columns
import SynthData.Proofs.Text.Split
import SynthData.Proofs.Value.Cells

/-!
# Tables that are read back

A table is written with a tab between cells and a line feed after each row, and nothing in a cell
is escaped.  `Rows.read` splits it again.  What it finds are texts without tabs and line feeds, and
if the cells are such texts it finds the cells (`Rows.read_written_iff`).

The program writes the names of the fields, and then a row for every record: the values that the
columns of the record have at this position (`Program.Generated`).  All values but texts are
written without tabs and line feeds.  So the rows can be read back if and only if no name and no
generated text contains any (`Program.read_back_iff`).
-/
namespace SynthData

open Text

namespace Rows

/-! ## Tables -/

/-- Reads a table: a line feed ends each row, and a tab stands between two cells. -/
def read (s : String) : List (List String) :=
  (splitChars '\n' s.toList).dropLast.map fun line => (splitChars '\t' line).map String.ofList

theorem toList_written (lines : List String) :
    (written lines).toList = lines.flatMap fun line => line.toList ++ ['\n'] := by
  have hfold (text : String) : (lines.foldl (fun text line => text ++ line ++ "\n") text).toList =
      text.toList ++ lines.flatMap fun line => line.toList ++ ['\n'] := by
    induction lines generalizing text with
    | nil => simp
    | cons line lines ih =>
      rw [List.foldl_cons, ih, List.flatMap_cons, String.toList_append, String.toList_append,
        List.append_assoc, List.append_assoc, List.append_assoc]
      rfl
  exact hfold ""

/-- Lines without line feeds are found again, with nothing after the last one. -/
theorem splitChars_written {lines : List String} (h : ∀ line ∈ lines, '\n' ∉ line.toList) :
    splitChars '\n' (written lines).toList = lines.map String.toList ++ [[]] := by
  rw [toList_written]
  induction lines with
  | nil => rfl
  | cons line lines ih =>
    obtain ⟨hline, hrest⟩ := List.forall_mem_cons.mp h
    rw [List.flatMap_cons, List.append_assoc, List.singleton_append, splitChars_append hline,
      ih hrest, List.map_cons, List.cons_append]

/-- What is read has neither tabs nor line feeds. -/
theorem unbroken_of_mem_read {s : String} {row : List String} {cell : String} (hrow : row ∈ read s)
    (hcell : cell ∈ row) : Unbroken cell := by
  obtain ⟨line, hline, rfl⟩ := List.mem_map.mp hrow
  obtain ⟨piece, hpiece, rfl⟩ := List.mem_map.mp hcell
  obtain ⟨hfeed, -⟩ := of_mem_splitChars (List.mem_of_mem_dropLast hline)
  obtain ⟨htab, hmem⟩ := of_mem_splitChars hpiece
  rw [unbroken_ofList]
  intro c hc
  refine ⟨?_, ?_⟩
  · rintro rfl
    exact htab hc
  · rintro rfl
    exact hfeed (hmem _ hc)

theorem splitChars_joinCells {row : List String} (hne : row ≠ [])
    (h : ∀ cell ∈ row, Unbroken cell) :
    splitChars '\t' (joinCells row).toList = row.map String.toList := by
  rw [joinCells, String.toList_intercalate]
  refine splitChars_intercalate (by simpa using hne) fun piece hpiece => ?_
  obtain ⟨cell, hcell, rfl⟩ := List.mem_map.mp hpiece
  exact fun hmem => (h cell hcell _ hmem).1 rfl

/-- **A table is read back if and only if no cell contains a tab or a line feed.** -/
theorem read_written_iff {table : List (List String)} (hne : ∀ row ∈ table, row ≠ []) :
    read (written (table.map joinCells)) = table ↔
      ∀ row ∈ table, ∀ cell ∈ row, Unbroken cell := by
  constructor
  · intro h row hrow cell hcell
    exact unbroken_of_mem_read (h ▸ hrow) hcell
  · intro h
    have hlines : ∀ line ∈ table.map joinCells, '\n' ∉ line.toList := by
      intro line hline hmem
      obtain ⟨row, hrow, rfl⟩ := List.mem_map.mp hline
      have htab : ∀ c ∈ "\t".toList, c ≠ '\n' := List.forall_mem_singleton.mpr (by decide)
      exact forall_mem_intercalate htab
        (fun cell hcell c hc => (h row hrow cell hcell c hc).2) _ hmem rfl
    rw [read, splitChars_written hlines, List.dropLast_concat, List.map_map, List.map_map]
    conv_rhs => rw [← List.map_id table]
    refine List.map_congr_left fun row hrow => ?_
    simp only [Function.comp_apply]
    rw [splitChars_joinCells (hne row hrow) (h row hrow), List.map_map]
    simp [Function.comp_def]

/-! ## Records as rows -/

/-- The values of a record under the names of fields, and null where it has none. -/
def values (names : List String) (v : Value) : List Value :=
  names.map fun name => (v.field? name).getD .null

theorem cells_eq (names : List String) (v : Value) :
    cells names v = (values names v).map Value.cell := by
  rw [cells, values, List.map_map]
  refine List.map_congr_left fun name _ => ?_
  rcases h : v.field? name with _ | value
  · simp [h, Value.cell]
  · simp [h]

theorem lines_text (names : List String) (records : List Value) :
    lines .text names records =
      (names :: records.map fun v => (values names v).map Value.cell).map joinCells := by
  rw [lines, header, List.singleton_append, List.map_cons, List.map_map]
  congr 1
  refine List.map_congr_left fun v _ => ?_
  rw [line, cells_eq]
  rfl

/-- A record of a row has the values of the row. -/
theorem values_ofEntries {entries : List (String × Value)} (h : (entries.map Prod.fst).Nodup) :
    values (entries.map Prod.fst) (Value.ofEntries entries) = entries.map Prod.snd := by
  rw [values, List.map_map]
  refine List.map_congr_left fun entry hentry => ?_
  rw [Function.comp_apply, (Value.field?_ofEntries h).mpr hentry, Option.getD_some]

/-- **Records are read back if and only if no name and no text among their values contains a tab or
a line feed.** -/
theorem read_lines_iff {names : List String} (hne : names ≠ []) (records : List Value) :
    read (written (lines .text names records)) =
        names :: records.map (fun v => (values names v).map Value.cell) ↔
      (∀ name ∈ names, Unbroken name) ∧
        ∀ v ∈ records, ∀ s, Value.text s ∈ values names v → Unbroken s := by
  have hcells (row : List Value) : (∀ cell ∈ row.map Value.cell, Unbroken cell) ↔
      ∀ s, Value.text s ∈ row → Unbroken s := by
    simp only [List.forall_mem_map, Value.unbroken_cell_iff]
    exact ⟨fun h s hs => h _ hs s rfl, fun h v hv s heq => h s (heq ▸ hv)⟩
  have hrows : ∀ row ∈ names :: records.map (fun v => (values names v).map Value.cell),
      row ≠ [] := by
    refine List.forall_mem_cons.mpr ⟨hne, fun row hrow => ?_⟩
    obtain ⟨v, -, rfl⟩ := List.mem_map.mp hrow
    simpa [values] using hne
  rw [lines_text, read_written_iff hrows, List.forall_mem_cons, List.forall_mem_map]
  simp only [hcells]

end Rows

/-! ## Runs of the program -/

namespace Program

/-- The values that are generated until there is none, or until there are enough. -/
theorem generateInto_values {σ : Type} (m : Machine σ Value) (records : Array Value) (limit : Nat)
    (s : σ) : ∃ values, (generateInto m records limit s).1.toList = records.toList ++ values ∧
      values.length ≤ limit ∧ (∀ k v, values[k]? = some v → m.answer k s = .ok (some v)) ∧
      (values.length < limit → ∀ v, m.answer values.length s ≠ .ok (some v)) := by
  induction limit generalizing records s with
  | zero => exact ⟨[], by simp [generateInto], Nat.le_refl 0, nofun, nofun⟩
  | succ limit ih =>
    have hstops (hsame : (generateInto m records (limit + 1) s).1 = records)
        (hnone : ∀ v, (m.generate s).1 ≠ .ok (some v)) :
        ∃ values, (generateInto m records (limit + 1) s).1.toList = records.toList ++ values ∧
          values.length ≤ limit + 1 ∧
          (∀ k v, values[k]? = some v → m.answer k s = .ok (some v)) ∧
          (values.length < limit + 1 → ∀ v, m.answer values.length s ≠ .ok (some v)) :=
      ⟨[], by rw [hsame, List.append_nil], Nat.zero_le _, nofun, fun _ => hnone⟩
    rcases hgenerate : m.generate s with ⟨fault | _ | v, s'⟩
    · exact hstops (by rw [generateInto, hgenerate]) (by rw [hgenerate]; exact nofun)
    · exact hstops (by rw [generateInto, hgenerate]) (by rw [hgenerate]; exact nofun)
    · obtain ⟨values, hvalues, hle, hanswers, hended⟩ := ih (records.push v) s'
      have hfirst : (m.generate s).1 = .ok (some v) := by rw [hgenerate]
      have hnext : (m.generate s).2 = s' := by rw [hgenerate]
      refine ⟨v :: values, ?_, Nat.succ_le_succ hle, ?_, ?_⟩
      · rw [generateInto, hgenerate]
        simpa using hvalues
      · intro k w hw
        cases k with
        | zero =>
          obtain rfl := Option.some.inj hw
          exact hfirst
        | succ k =>
          rw [Machine.answer_succ, hnext]
          exact hanswers k w hw
      · intro hlt w
        rw [List.length_cons, Machine.answer_succ, hnext]
        exact hended (Nat.lt_of_succ_lt_succ hlt) w

/-- **The rows that columns make**: each row has the values of the columns at its position, and the
rows go on until there are enough of them, or until one of the columns has no value. -/
structure Generated (columns : List Column) (limit : Nat) (rows : List (List Value)) : Prop where
  values : ∀ k row, rows[k]? = some row →
    List.Forall₂ (fun column v => column.2.answer k = .ok (some v)) columns row
  length_le : rows.length ≤ limit
  ended : rows.length < limit → ¬ ∀ column ∈ columns, column.2.Gives rows.length

/-- **The records are rows of their columns.** -/
theorem generateInto_rows {σ : Type} {fields : Fields σ} {states : σ} {columns : List Column}
    (hcolumns : fields.columns states = columns) (hnames : (columns.map Prod.fst).Nodup)
    (limit : Nat) :
    Generated columns limit ((generateInto (Record.machine fields) #[] limit
      ⟨states, .running⟩).1.toList.map (Rows.values (columns.map Prod.fst))) := by
  obtain ⟨values, hvalues, hle, hanswers, hended⟩ :=
    generateInto_values (Record.machine fields) #[] limit ⟨states, .running⟩
  rw [hvalues, List.nil_append]
  -- as long as there are records, every column has a value
  have hlasts {n : Nat} (hn : n ≤ values.length) :
      ∀ column ∈ fields.columns states, column.2.Lasts n := by
    refine (Record.lasts_iff fields states n).mp fun k hk => ?_
    have hlt : k < values.length := Nat.lt_of_lt_of_le hk hn
    exact ⟨_, hanswers k _ (List.getElem?_eq_getElem hlt)⟩
  refine ⟨fun k row hrow => ?_, by rwa [List.length_map], fun hlt hgives => ?_⟩
  · rw [List.getElem?_map, Option.map_eq_some_iff] at hrow
    obtain ⟨v, hv, rfl⟩ := hrow
    have hk : k < values.length := (List.getElem?_eq_some_iff.mp hv).1
    have hanswer := hanswers k v hv
    rw [Record.answer_row (hlasts hk.le), hcolumns] at hanswer
    rcases hentries : Column.row k columns with fault | _ | entries
    all_goals rw [hentries] at hanswer
    · cases hanswer
    · cases hanswer
    · obtain rfl := Option.some.inj (Except.ok.inj hanswer)
      rw [← Column.map_fst_row hentries] at hnames ⊢
      rw [Rows.values_ofEntries hnames, List.forall₂_map_right_iff]
      exact (Column.row_eq_some.mp hentries).imp fun _ _ h => h.2
  · rw [List.length_map] at hlt hgives
    obtain ⟨entries, hrow⟩ := Column.row_of_gives hgives
    refine hended hlt (Value.ofEntries entries) ?_
    rw [Record.answer_row (hlasts le_rfl), hcolumns, hrow]
    rfl

end Program

/-! ## Accepted configurations -/

namespace Field

variable {r : Registry} {fs : List Field} {position : Nat} {before : List String}

/-- Names that have been checked are different, also from those before. -/
theorem nodup_of_checkFrom (h : checkFrom position before fs = .ok ()) :
    (fs.map Field.name).Nodup ∧ ∀ f ∈ fs, f.name ∉ before := by
  induction fs generalizing position before with
  | nil => exact ⟨List.nodup_nil, fun _ h => absurd h List.not_mem_nil⟩
  | cons f fs ih =>
    rw [checkFrom] at h
    split at h
    · cases h
    · split at h
      · cases h
      · next hnew =>
        split at h
        · cases h
        · obtain ⟨hnodup, hrest⟩ := ih h
          refine ⟨List.nodup_cons.mpr ⟨fun hmem => ?_, hnodup⟩, ?_⟩
          · obtain ⟨g, hg, heq⟩ := List.mem_map.mp hmem
            exact hrest g hg (heq ▸ List.mem_cons_self)
          · refine List.forall_mem_cons.mpr ⟨by simpa using hnew, fun g hg hmem => ?_⟩
            exact hrest g hg (List.mem_cons_of_mem _ hmem)

theorem map_fst_producers {ps : List (String × Producer Value)} (h : producers r fs = .ok ps) :
    ps.map Prod.fst = fs.map Field.name := by
  induction fs generalizing ps with
  | nil =>
    obtain rfl := Except.ok.inj h
    rfl
  | cons f fs ih =>
    rw [producers] at h
    split at h
    · cases h
    · split at h
      · cases h
      · next hrest =>
        obtain rfl := Except.ok.inj h
        rw [List.map_cons, List.map_cons, ih hrest]

end Field

theorem FieldList.names_ofList (ps : List (String × Producer Value)) :
    (ofList ps).fields.names = ps.map Prod.fst := by
  induction ps with
  | nil => rfl
  | cons field rest ih => exact congrArg (field.1 :: ·) ih

theorem Config.checkAll_of_check {r : Registry} {c : Config} (h : c.check r = .ok ()) :
    Field.checkAll c.fields = .ok () := by
  unfold check at h
  split at h
  · cases h
  · split at h
    · cases h
    · next hfields => exact hfields

/-- An accepted configuration has fields, all of them with names of their own. -/
theorem Config.names_of_check {r : Registry} {c : Config} (h : c.check r = .ok ()) :
    c.fields ≠ [] ∧ (c.fields.map Field.name).Nodup := by
  have hall := checkAll_of_check h
  unfold Field.checkAll at hall
  split at hall
  · cases hall
  · next hne => exact ⟨by simpa using hne, (Field.nodup_of_checkFrom hall).1⟩

namespace Program

variable {r : Registry} {c : Config} {o : Options}

/-- The rows of the program are written whether it has failed or not. -/
theorem out_generate {fields : List (String × Producer Value)}
    (hfields : Field.producers r c.fields = .ok fields) (entropy : Nat → Rng) :
    let begun := (Streams.start entropy).newContext c.settings
    let record := (FieldList.ofList fields).producer
    ((∃ fault, (record.machine.init begun.1 record.state begun.2).1 = .error fault) →
      (generate r entropy o c).out = "") ∧
    ((record.machine.init begun.1 record.state begun.2).1 = .ok () →
      (generate r entropy o c).out = Rows.written (Rows.lines o.format (c.fields.map Field.name)
        (generateInto record.machine #[] o.rows
          (record.machine.init begun.1 record.state begun.2).2.1).1.toList)) := by
  intro begun record
  have hlist : Field.recordFields r c.fields = .ok (.ofList fields) := by
    rw [Field.recordFields, hfields]
  have hnames : (FieldList.ofList fields).fields.names = c.fields.map Field.name := by
    rw [FieldList.names_ofList, Field.map_fst_producers hfields]
  unfold generate
  rw [hlist]
  dsimp only
  rcases hinit : record.machine.init begun.1 record.state begun.2 with ⟨fault | _, s, streams⟩
  · exact ⟨fun _ => rfl, fun h => by cases h⟩
  · refine ⟨fun h => ?_, fun _ => ?_⟩
    · obtain ⟨_, h⟩ := h
      cases h
    rw [hnames]
    dsimp only
    split
    · next h => rw [h]; rfl
    · next h => rw [h]; rfl

/-- **Tables can be read back if nothing in them contains a tab or a line feed, and otherwise they
cannot.**  An accepted configuration has a generator for every field.  If these generators cannot
be initialized, nothing is written.  If they can, there is a line with the names of the fields, and
a line for each row of the columns.  These lines are read back as the names and the written values
if and only if no name and no text among the values contains a tab or a line feed. -/
theorem read_back_iff (hcheck : c.check r = .ok ()) (hformat : o.format = .text)
    (entropy : Nat → Rng) :
    let begun := (Streams.start entropy).newContext c.settings
    ∃ fields, Field.producers r c.fields = .ok fields ∧
      let record := (FieldList.ofList fields).producer
      let columns := FieldList.begun begun.1 fields begun.2
      columns.map Prod.fst = c.fields.map Field.name ∧
      ((∃ fault, (record.machine.init begun.1 record.state begun.2).1 = .error fault) →
        (generate r entropy o c).out = "") ∧
      ((record.machine.init begun.1 record.state begun.2).1 = .ok () →
        ∃ rows, Generated columns o.rows rows ∧
          (Rows.read (generate r entropy o c).out =
              c.fields.map Field.name :: rows.map (·.map Value.cell) ↔
            (∀ f ∈ c.fields, Unbroken f.name) ∧
              ∀ row ∈ rows, ∀ s, Value.text s ∈ row → Unbroken s)) := by
  intro begun
  obtain ⟨hne, hnodup⟩ := Config.names_of_check hcheck
  obtain ⟨fields, hfields⟩ : ∃ fields, Field.producers r c.fields = .ok fields := by
    obtain ⟨list, hlist⟩ :=
      Field.recordFields_of_checkProducers (Config.checkProducers_of_check hcheck)
    unfold Field.recordFields at hlist
    split at hlist
    · cases hlist
    · exact ⟨_, ‹_›⟩
  refine ⟨fields, hfields, ?_⟩
  intro record columns
  have hcolumns : columns.map Prod.fst = c.fields.map Field.name :=
    (FieldList.map_fst_begun _ _ _).trans (Field.map_fst_producers hfields)
  obtain ⟨hfailed, hwritten⟩ := out_generate (o := o) hfields entropy
  refine ⟨hcolumns, hfailed, fun hinit => ?_⟩
  obtain ⟨states, hbegun, hstates⟩ := FieldList.begun_producer hinit
  have hstate : (record.machine.init begun.1 record.state begun.2).2.1 = ⟨states, .running⟩ :=
    eq_of_heq (Producer.mk.inj hbegun).2.2
  have hrows := generateInto_rows hstates (hcolumns ▸ hnodup) o.rows
  rw [hcolumns] at hrows
  refine ⟨_, hrows, ?_⟩
  rw [hwritten hinit, hstate, hformat]
  rw [List.map_map, List.forall_mem_map, ← List.forall_mem_map (P := Unbroken) (f := Field.name)]
  exact Rows.read_lines_iff (by simpa using hne) _

/-- A column with a single text. -/
def oneText (s : String) : Config where
  settings := {}
  fields := [⟨"a", .values [.text s], some "step", false⟩]

/-- A table with one row. -/
def oneRow : Options := ⟨none, 1, none, none, .text, false, false⟩

theorem oneText_producer (s : String) :
    Field.producer .builtins ⟨"a", .values [.text s], some "step", false⟩ =
      .ok (Strategy.plainStep.sampleBy (listProducer [.text s]) false) := by
  have hfind : Registry.builtins.find? "step" = some ⟨4, .plainStep⟩ := rfl
  have hstep : Registry.builtins.strategy "step" = .ok .plainStep :=
    Registry.strategy_of_find? (by decide) hfind
  have hname : Field.strategyName ⟨"a", .values [.text s], some "step", false⟩ = "step" := rfl
  unfold Field.producer
  rw [hname, hstep]
  rfl

theorem oneText_check (s : String) : (oneText s).check .builtins = .ok () := by
  have hsettings : (oneText s).settings.check = .ok () := rfl
  have hname : (trimChars "a".toList).isEmpty = false := rfl
  have hkind : FieldKind.check (.values [.text s]) = .ok () := rfl
  have hfields : Field.checkAll (oneText s).fields = .ok () := by
    simp only [oneText, Field.checkAll, Field.checkFrom, hname, hkind]
    rfl
  have hproducers : Field.checkProducers .builtins (oneText s).fields = .ok () := by
    simp only [oneText, Field.checkProducers, oneText_producer]
  simp only [Config.check, hsettings, hfields, hproducers]

theorem producers_oneText (s : String) : Field.producers .builtins (oneText s).fields =
    .ok [("a", Strategy.plainStep.sampleBy (listProducer [.text s]) false)] := by
  simp only [oneText, Field.producers, oneText_producer]

/-- A letter is read back. -/
theorem read_back_iff_oneText :
    (oneText "x").check .builtins = .ok () ∧ oneRow.format = .text ∧
      ∃ rows : List (List Value), rows.length = 1 ∧
        Rows.read (generate .builtins (fun _ => .ofSeed 0) oneRow (oneText "x")).out =
          ["a"] :: rows.map (·.map Value.cell) := by
  refine ⟨oneText_check "x", rfl, ?_⟩
  obtain ⟨fields, hfields, -, -, hrows⟩ :=
    read_back_iff (o := oneRow) (oneText_check "x") rfl (fun _ => .ofSeed 0)
  obtain rfl := Except.ok.inj ((producers_oneText "x").symm.trans hfields)
  obtain ⟨rows, hgenerated, hread⟩ := hrows rfl
  have htext (row : List Value) (hrow : row ∈ rows) : row = [.text "x"] := by
    obtain ⟨k, hk⟩ := List.mem_iff_getElem?.mp hrow
    have hlt := (List.getElem?_eq_some_iff.mp hk).1
    obtain rfl : k = 0 := Nat.lt_one_iff.mp (Nat.lt_of_lt_of_le hlt hgenerated.length_le)
    obtain ⟨v, rest, hv, hrest, rfl⟩ := List.forall₂_cons_left_iff.mp (hgenerated.values 0 row hk)
    obtain rfl := List.forall₂_nil_left_iff.mp hrest
    obtain rfl : v = .text "x" := (Option.some.inj (Except.ok.inj hv)).symm
    rfl
  refine ⟨rows, ?_, hread.mpr ⟨by decide, ?_⟩⟩
  · by_contra hlength
    obtain rfl : rows = [] := List.eq_nil_of_length_eq_zero
      (Nat.lt_one_iff.mp (Nat.lt_of_le_of_ne hgenerated.length_le hlength))
    refine hgenerated.ended (by decide) (List.forall_mem_cons.mpr ⟨⟨.text "x", rfl⟩, nofun⟩)
  · intro row hrow s hs
    rw [htext row hrow, List.mem_singleton] at hs
    cases hs
    decide

/-- **A text with a tab is not read back**: two cells are found for a single field. -/
theorem oneText_not_read_back :
    (oneText "x\ty").check .builtins = .ok () ∧ oneRow.format = .text ∧
      (generate .builtins (fun _ => .ofSeed 0) oneRow (oneText "x\ty")).out = "a\nx\ty\n" ∧
      Rows.read (generate .builtins (fun _ => .ofSeed 0) oneRow (oneText "x\ty")).out =
        [["a"], ["x", "y"]] := by
  have hout : (generate .builtins (fun _ => .ofSeed 0) oneRow (oneText "x\ty")).out =
      "a\nx\ty\n" := by
    obtain ⟨-, hwritten⟩ :=
      out_generate (o := oneRow) (producers_oneText "x\ty") (fun _ => .ofSeed 0)
    rw [hwritten rfl]
    rfl
  exact ⟨oneText_check _, rfl, hout, by rw [hout]; decide⟩

end Program
end SynthData
