import SynthData.Data.Basic

/-!
# The tables of a TOML document

A document grows out of headers and entries. Each of them may add to tables that are there, but not
to all of them, which is why a table remembers how it came to be:

* a table that a header opened, or that a value describes, gets no entries from elsewhere;
* a table that only lies on the way to a header's table may still be opened by a header of its own;
* a table that a dotted key made gets entries from other dotted keys.

Where a header leads through a list of tables, its last table is meant.
-/

namespace SynthData.Toml

/-- How a table came to be. -/
inductive Origin where
  | opened
  | passed
  | dotted
deriving DecidableEq

/-- What stands under a key of a document that is being read. -/
inductive Node where
  | value (d : Data)
  | table (origin : Origin) (entries : List (String × Node))
  /-- A list of tables that headers opened one after the other. -/
  | tables (list : List (List (String × Node)))

/-- The entries of a table. -/
abbrev Nodes := List (String × Node)

namespace Node

mutual

/-- A node as data. -/
def toData : Node → Data
  | value d => d
  | table _ entries => .table (entriesToData entries)
  | tables list => .list (listToData list)

/-- The entries of a table as data. -/
def entriesToData : List (String × Node) → List (String × Data)
  | [] => []
  | (name, node) :: rest => (name, toData node) :: entriesToData rest

/-- The tables of a list as data. -/
def listToData : List (List (String × Node)) → List Data
  | [] => []
  | entries :: rest => .table (entriesToData entries) :: listToData rest

end

end Node

namespace Nodes

/-- Puts something under a name in place of what is there. -/
def update (name : String) (f : Option Node → Option Node) : Nodes → Option Nodes
  | [] => (f none).map fun node => [(name, node)]
  | (n, node) :: rest =>
    if n = name then (f (some node)).map fun node => (n, node) :: rest
    else (update name f rest).map fun rest => (n, node) :: rest

/-- Changes the last table of a list. -/
def updateLast (f : Nodes → Option Nodes) : List Nodes → Option (List Nodes)
  | [] => none
  | [entries] => (f entries).map fun entries => [entries]
  | entries :: rest => (updateLast f rest).map fun rest => entries :: rest

/-- Puts a value under a new name. -/
def insertNew (name : String) (d : Data) (entries : Nodes) : Option Nodes :=
  entries.update name fun
    | none => some (.value d)
    | some _ => none

/-- Puts a value under the last name of a dotted key, in the table that the names before it lead
to. Only tables of dotted keys get the value itself. -/
def assignIn (name : String) (d : Data) : (path : List String) → Nodes → Option Nodes
  | [], entries => entries.insertNew name d
  | p :: ps, entries =>
    entries.update p fun
      | none => (assignIn name d ps []).map (.table .dotted)
      | some (.table .dotted inner) => (assignIn name d ps inner).map (.table .dotted)
      | some (.table .passed inner) =>
        if ps.isEmpty then none else (assignIn name d ps inner).map (.table .passed)
      | some (.table .opened _) => none
      | some (.tables list) =>
        if ps.isEmpty then none else (updateLast (assignIn name d ps) list).map .tables
      | some (.value _) => none

/-- Puts a value under a key. -/
def assign (entries : Nodes) (entry : List String × Data) : Option Nodes :=
  match entry.1.getLast? with
  | none => none
  | some name => assignIn name entry.2 entry.1.dropLast entries

/-- Changes the table that the names of a header lead to. -/
def within (f : Nodes → Option Nodes) : (path : List String) → Nodes → Option Nodes
  | [], entries => f entries
  | p :: ps, entries =>
    entries.update p fun
      | none => (within f ps []).map (.table .passed)
      | some (.table origin inner) => (within f ps inner).map (.table origin)
      | some (.tables list) => (updateLast (within f ps) list).map .tables
      | some (.value _) => none

/-- Opens the table of a header and puts values into it. -/
def openTable (name : String) (values : List (List String × Data)) (entries : Nodes) :
    Option Nodes :=
  entries.update name fun
    | none => (values.foldlM assign []).map (.table .opened)
    | some (.table .passed inner) => (values.foldlM assign inner).map (.table .opened)
    | some _ => none

/-- Adds a table to the list of a header and puts values into it. -/
def addTable (name : String) (values : List (List String × Data)) (entries : Nodes) :
    Option Nodes :=
  entries.update name fun
    | none => (values.foldlM assign []).map fun entries => .tables [entries]
    | some (.tables list) => (values.foldlM assign []).map fun entries => .tables (list ++ [entries])
    | some _ => none

end Nodes

/-- The table that an inline table describes. -/
def inlineTable? (values : List (List String × Data)) : Option Data :=
  (values.foldlM Nodes.assign []).map fun entries => .table (Node.entriesToData entries)

end SynthData.Toml
