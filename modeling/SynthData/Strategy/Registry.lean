import SynthData.Strategy.Basic

/-!
# Registered strategies

A registry gives strategies names. Each registration of a new strategy gets a serial number, by
which one can tell whether two names stand for the same registration.
-/

namespace SynthData

/-- A registered strategy. -/
structure Entry where
  serial : Nat
  strategy : Strategy

/-- Names and what they stand for, in the order of the names. -/
structure Registry where
  entries : List (String × Entry)
  /-- The number of serial numbers given so far. -/
  serials : Nat

namespace Registry

/-- The registry without names. -/
def empty : Registry := ⟨[], 0⟩

/-- Puts an entry under a name, in the order of the names; an entry already there is replaced. -/
def insertEntry (name : String) (entry : Entry) : List (String × Entry) → List (String × Entry)
  | [] => [(name, entry)]
  | (name', entry') :: rest =>
    if name = name' then (name, entry) :: rest
    else if name < name' then (name, entry) :: (name', entry') :: rest
    else (name', entry') :: insertEntry name entry rest

/-- Registers a strategy under a name. -/
def register (r : Registry) (name : String) (strategy : Strategy) : Registry :=
  ⟨insertEntry name ⟨r.serials, strategy⟩ r.entries, r.serials + 1⟩

/-- Registers another name for an entry. -/
def share (r : Registry) (name : String) (entry : Entry) : Registry :=
  { r with entries := insertEntry name entry r.entries }

/-- What a name stands for. -/
def find? (r : Registry) (name : String) : Option Entry :=
  (r.entries.find? fun entry => entry.1 == name).map Prod.snd

/-- What a name stands for, where there has to be something. -/
def get (r : Registry) (name : String) : Except Fault Entry :=
  match r.find? name with
  | some entry => .ok entry
  | none => .error (.unregistered name)

/-- All names, in their order. -/
def names (r : Registry) : List String :=
  r.entries.map Prod.fst

/-- Whether two names stand for the same registration; nothing if one of them stands for none. -/
def same? (r : Registry) (a b : String) : Option Bool :=
  match r.find? a, r.find? b with
  | some a, some b => some (a.serial == b.serial)
  | _, _ => none

/-- Means of five draws. -/
def plainCumulated : Strategy := .cumulated 5 (by decide)

/-- Strides of two points. -/
def plainShuffle : Strategy := .shuffle 2 (by decide)

/-- Steps of at most one point to either side. -/
def plainWalk : Strategy := .randomWalk (-1) 1 (by decide) none

/-- The first value only. -/
def plainHead : Strategy := .head 1 (by decide)

/-- The strategies that need no parameters, with the defaults of those that can have some. -/
def builtIn : List (String × Strategy) :=
  [("random", .random), ("shuffle", plainShuffle), ("cumulated", plainCumulated),
    ("randomWalk", plainWalk), ("step", .plainStep), ("increment", .increment),
    ("wedge", .wedge), ("bitreverse", .bitReverse), ("expand", .expand none 0),
    ("fibonacci", .fibonacci), ("padovan", .padovan), ("head", plainHead)]

/-- The registry of the built-in strategies. The name `single` stands for the same registration as
`head`. -/
def builtins : Registry :=
  let r := builtIn.foldl (fun r entry => r.register entry.1 entry.2) empty
  match r.find? "head" with
  | some entry => r.share "single" entry
  | none => r

end Registry
end SynthData
