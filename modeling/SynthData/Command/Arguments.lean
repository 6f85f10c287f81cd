import SynthData.Field.Check
import SynthData.Text.Basic

/-!
# The command line

What a command line can ask for, and how its arguments are read.
-/

namespace SynthData

/-! ## Options

`Options` is what a command line asks for. Some options override settings of the configuration.
-/

/-- How records are written. -/
inductive RowFormat where
  /-- One JSON object a line. -/
  | json
  /-- One line of cells a record, and a line of names before them. -/
  | text
deriving DecidableEq

namespace RowFormat

/-- The name of a format. -/
def name : RowFormat → String
  | json => "json"
  | text => "text"

/-- The format of a name. -/
def ofName? (s : String) : Option RowFormat :=
  if s = json.name then some json else if s = text.name then some text else none

end RowFormat

/-- What a command line asks for. -/
structure Options where
  /-- The file with the configuration. -/
  config : Option String
  /-- The number of records to generate. -/
  rows : Nat
  seed : Option UInt64
  cacheSize : Option Nat
  format : RowFormat
  /-- Whether to list the names of the sequences and nothing else. -/
  listSequences : Bool
  /-- Whether to check the configuration and generate nothing. -/
  dryRun : Bool

namespace Options

/-- The number of records unless another one is asked for. -/
def defaultRows : Nat := 10

/-- The cache must have room for a value. -/
def check (o : Options) : Except Objection Unit :=
  if o.cacheSize = some 0 then .error .cacheSizeZero else .ok ()

/-- The configuration with the settings that the options override. -/
def override (o : Options) (c : Config) : Config :=
  { c with
    settings := { c.settings with
      seed := o.seed.orElse fun _ => c.settings.seed
      cacheSize := o.cacheSize.getD c.settings.cacheSize } }

end Options

/-! ## Reading arguments

Arguments are read from left to right by a machine. An argument with two hyphens is an option by its
full name and one with a single hyphen an option by its letter; either may carry its value after an
equals sign, and the letter also directly. After two hyphens alone nothing is an option.

A value that stands in an argument of its own is only looked at when the next argument has been
recognized, or at the end. So an unknown option, or a value where none is expected, is reported
before anything about the value that precedes it.
-/

/-- A place for a value. -/
inductive Slot where
  | config
  | rows
  | seed
  | cacheSize
  | format
deriving DecidableEq

/-- An option without a value. -/
inductive Switch where
  | listSequences
  | dryRun
  | help
  | version
deriving DecidableEq

/-- Why a command line is not understood. -/
inductive UsageFault where
  | configMissing
  | unknown (argument : String)
  | valueMissing (slot : Slot)
  | notAChoice (slot : Slot) (value : String)
  | notANumber (slot : Slot) (value : String)
  | repeated (option : String)
  | valueUnexpected (switch : Switch) (value : String)

/-- Why there are no options to go on with. -/
inductive Interruption where
  | fault (cause : UsageFault)
  | help
  | version

namespace Slot

/-- How a slot is written. -/
def name : Slot → String
  | config => "CONFIG"
  | rows => "--rows"
  | seed => "--seed"
  | cacheSize => "--cache-size"
  | format => "--format"

end Slot

namespace Switch

/-- How a switch is written. -/
def name : Switch → String
  | listSequences => "--list-sequences"
  | dryRun => "--dry-run"
  | help => "--help"
  | version => "--version"

end Switch

namespace UsageFault

/-- The wording of a fault. -/
def message : UsageFault → String
  | configMissing => "a configuration file is required"
  | unknown argument => s!"unexpected argument '{argument}' found"
  | valueMissing slot => s!"a value is required for '{slot.name}' but none was supplied"
  | notAChoice slot value => s!"invalid value '{value}' for '{slot.name}'"
  | notANumber slot value => s!"invalid value '{value}' for '{slot.name}': not a number"
  | repeated option => s!"the argument '{option}' cannot be used multiple times"
  | valueUnexpected switch value =>
    s!"unexpected value '{value}' for '{switch.name}' found; no more were expected"

end UsageFault

namespace Arguments

/-- What has been given so far. -/
structure Given where
  config : Option String := none
  rows : Option Nat := none
  seed : Option UInt64 := none
  cacheSize : Option Nat := none
  format : Option RowFormat := none
  listSequences : Bool := false
  dryRun : Bool := false

/-- A whole number of 64 bits in base ten. -/
def readWord? (s : String) : Option Nat :=
  (Text.natural? s.toList).filter (· < UInt64.size)

namespace Given

/-- Whether a slot has been filled. -/
def has (g : Given) : Slot → Bool
  | .config => g.config.isSome
  | .rows => g.rows.isSome
  | .seed => g.seed.isSome
  | .cacheSize => g.cacheSize.isSome
  | .format => g.format.isSome

/-- Fills a slot, whatever was in it. -/
def fill (g : Given) (slot : Slot) (value : String) : Except UsageFault Given :=
  let number (put : Nat → Given) : Except UsageFault Given :=
    match readWord? value with
    | some n => .ok (put n)
    | none => .error (.notANumber slot value)
  match slot with
  | .config => if value.isEmpty then .error (.valueMissing slot) else .ok { g with config := value }
  | .rows => number fun n => { g with rows := n }
  | .seed => number fun n => { g with seed := some (UInt64.ofNat n) }
  | .cacheSize => number fun n => { g with cacheSize := n }
  | .format =>
    match RowFormat.ofName? value with
    | some f => .ok { g with format := f }
    | none => .error (.notAChoice slot value)

/-- Fills an empty slot. -/
def store (g : Given) (slot : Slot) (value : String) : Except UsageFault Given :=
  if g.has slot then .error (.repeated slot.name) else g.fill slot value

/-- Takes note of a switch. -/
def turnOn (g : Given) (switch : Switch) : Except Interruption Given :=
  match switch with
  | .listSequences =>
    if g.listSequences then .error (.fault (.repeated switch.name))
    else .ok { g with listSequences := true }
  | .dryRun =>
    if g.dryRun then .error (.fault (.repeated switch.name)) else .ok { g with dryRun := true }
  | .help => .error .help
  | .version => .error .version

end Given

/-- What was recognized last and has not been looked at. -/
inductive Pending where
  | nothing
  /-- An option whose value is to come. -/
  | slot (slot : Slot)
  | value (slot : Slot) (value : String)

/-- A state of the machine. -/
structure State where
  given : Given
  pending : Pending
  /-- Whether there was a file already. -/
  hasConfig : Bool
  /-- Whether two hyphens alone have ended the options. -/
  plain : Bool

/-- The state before the first argument. -/
def start : State := ⟨{}, .nothing, false, false⟩

namespace State

/-- Looks at what is pending. -/
def settle (s : State) : Except Interruption State :=
  match s.pending with
  | .nothing => .ok s
  | .slot slot => .error (.fault (.valueMissing slot))
  | .value slot value =>
    match s.given.store slot value with
    | .error cause => .error (.fault cause)
    | .ok given => .ok { s with given, pending := .nothing }

/-- Takes an argument that is no option: the file, of which there is one. -/
def takeFile (s : State) (argument : String) : Except Interruption State :=
  if s.hasConfig then .error (.fault (.unknown argument))
  else
    match s.settle with
    | .error stop => .error stop
    | .ok s => .ok { s with pending := .value .config argument, hasConfig := true }

end State

/-- An option as it stands in an argument, with the value that the argument carries. -/
inductive Mention where
  | slot (slot : Slot) (value : Option String)
  | switch (switch : Switch) (value : Option String)
  | unknown

/-- The option with a full name. -/
def mention (name : String) (value : Option String) : Mention :=
  match name with
  | "rows" => .slot .rows value
  | "seed" => .slot .seed value
  | "cache-size" => .slot .cacheSize value
  | "format" => .slot .format value
  | "list-sequences" => .switch .listSequences value
  | "dry-run" => .switch .dryRun value
  | "help" => .switch .help value
  | "version" => .switch .version value
  | _ => .unknown

/-- The option that an argument mentions, if it is not a plain argument. -/
def mention? : List Char → Option Mention
  | '-' :: '-' :: cs =>
    let name := String.ofList (cs.takeWhile (· ≠ '='))
    match cs.dropWhile (· ≠ '=') with
    | [] => some (mention name none)
    | _ :: value => some (mention name (String.ofList value))
  | '-' :: 'n' :: cs =>
    match cs with
    | [] => some (.slot .rows none)
    | '=' :: value => some (.slot .rows (String.ofList value))
    | value => some (.slot .rows (String.ofList value))
  | '-' :: 'h' :: _ => some (.switch .help none)
  | '-' :: 'V' :: _ => some (.switch .version none)
  | '-' :: _ :: _ => some .unknown
  | _ => none

/-- Takes an argument. -/
def step (s : State) (argument : String) : Except Interruption State :=
  if s.plain then s.takeFile argument
  else if argument = "--" then .ok { s with plain := true }
  else
    match mention? argument.toList with
    | some .unknown => .error (.fault (.unknown argument))
    | some (.switch switch (some value)) => .error (.fault (.valueUnexpected switch value))
    | some (.switch switch none) => do
      let s ← s.settle
      let given ← s.given.turnOn switch
      return { s with given }
    | some (.slot slot none) => do
      let s ← s.settle
      return { s with pending := .slot slot }
    | some (.slot slot (some value)) => do
      let s ← s.settle
      { s with pending := .value slot value }.settle
    | none =>
      match s.pending with
      | .slot slot => .ok { s with pending := .value slot argument }
      | _ => s.takeFile argument

/-- The seed comes from the environment unless an option gave it. -/
def Given.withDefaultSeed (g : Given) (environment : Option String) : Except Interruption Given :=
  match environment with
  | none => .ok g
  | some value =>
    if g.seed.isSome then .ok g
    else
      match g.fill .seed value with
      | .error cause => .error (.fault cause)
      | .ok g => .ok g

/-- The options that were given, and the defaults of the others. Only a list of the sequences needs
no file. -/
def Given.finish (g : Given) : Except Interruption Options :=
  if g.config.isNone && !g.listSequences then .error (.fault .configMissing)
  else .ok
    { config := g.config
      rows := g.rows.getD Options.defaultRows
      seed := g.seed
      cacheSize := g.cacheSize
      format := g.format.getD .json
      listSequences := g.listSequences
      dryRun := g.dryRun }

end Arguments

/-- The environment variable that may hold the seed. -/
def Options.seedVariable : String := "DATAPULSE_SEED"

/-- The options of a command line, and of the environment variable for the seed if it is set. -/
def Options.ofArguments (arguments : List String) (environment : Option String) :
    Except Interruption Options := do
  let s ← arguments.foldlM Arguments.step Arguments.start
  let s ← s.settle
  let given ← s.given.withDefaultSeed environment
  given.finish

end SynthData
