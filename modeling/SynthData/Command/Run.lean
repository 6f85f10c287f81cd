import SynthData.Command.Arguments
import SynthData.Command.Output
import SynthData.Config.Data

/-!
# Running the program

A command line is either answered at once or asks for a file. The configuration in the file is
checked, and then summarized or used to generate rows. Rows that were generated before a failure are
written all the same.
-/

namespace SynthData

/-- What a run of the program leaves behind. -/
structure Outcome where
  /-- Zero, unless something failed. -/
  code : UInt8
  /-- What is written to the standard output. -/
  out : String
  /-- The lines of messages. -/
  messages : List String

namespace Outcome

/-- A run that writes lines and no messages. -/
def written (lines : List String) : Outcome :=
  ⟨0, Rows.written lines, []⟩

/-- A run that fails after some lines have been written. The failure is described from the outside
in. -/
def failed (lines : List String) (description : List String) : Outcome :=
  ⟨1, Rows.written lines, Report.lines description⟩

end Outcome

namespace Program

/-- The name and the version of the program. -/
def version : String := "datapulse 0.1.0"

/-- What the program can be asked for. -/
def help : List String :=
  ["datapulse - Synthetic test data generator",
   "",
   "Usage: datapulse [OPTIONS] [CONFIG]",
   "",
   "Arguments:",
   "  [CONFIG]  TOML file describing the fields to generate",
   "",
   "Options:",
   "  -n, --rows <ROWS>              Number of rows to generate [default: 10]",
   "      --seed <SEED>              Seed for reproducible output [env: DATAPULSE_SEED=]",
   "      --cache-size <CACHE_SIZE>  Maximum number of source values a strategy materializes",
   "      --format <FORMAT>          Output format [default: json] [possible values: json, text]",
   "      --list-sequences           Print the registered sequence names and exit",
   "      --dry-run                  Validate the configuration without generating rows",
   "  -h, --help                     Print help",
   "  -V, --version                  Print version"]

/-- What a command line comes to. -/
inductive Request where
  | answer (outcome : Outcome)
  /-- The configuration in a file is wanted. -/
  | file (path : String) (options : Options)

/-- The answer to a command line without options to go on with. -/
def interrupted : Interruption → Outcome
  | .help => .written help
  | .version => .written [version]
  | .fault cause => ⟨2, "", ["error: " ++ cause.message, "", "For more information, try '--help'."]⟩

/-- The request that options make. -/
def requestOf (r : Registry) (o : Options) : Request :=
  match o.check with
  | .error objection => .answer (.failed [] objection.chain)
  | .ok _ =>
    if o.listSequences then .answer (.written r.names)
    else
      match o.config with
      | none => .answer (.failed [] ["A configuration file is required"])
      | some path => .file path o

/-- The request that a command line makes. -/
def request (r : Registry) (arguments : List String) (seed? : Option String) : Request :=
  match Options.ofArguments arguments seed? with
  | .error stop => .answer (interrupted stop)
  | .ok o => requestOf r o

/-- Generates records, at most `limit` of them, and adds them to `records`. A failure ends them. -/
def generateInto {σ : Type} (m : Machine σ Value) (records : Array Value) :
    (limit : Nat) → σ → Array Value × Option Fault
  | 0, _ => (records, none)
  | limit + 1, s =>
    match m.generate s with
    | (.error fault, _) => (records, some fault)
    | (.ok none, _) => (records, none)
    | (.ok (some v), s) => generateInto m (records.push v) limit s

/-- Generates rows for a configuration. -/
def generate (r : Registry) (entropy : Nat → Rng) (o : Options) (c : Config) : Outcome :=
  match Field.recordFields r c.fields with
  | .error fault => .failed [] ["Failed to build generators", fault.message]
  | .ok list =>
    let p := list.producer
    let (context, streams) := (Streams.start entropy).newContext c.settings
    match p.machine.init context p.state streams with
    | (.error fault, _) => .failed [] ["Failed to initialize generators", fault.message]
    | (.ok _, s, _) =>
      let names := list.fields.names
      match generateInto p.machine #[] o.rows s with
      | (records, none) => .written (Rows.lines o.format names records.toList)
      | (records, some fault) =>
        .failed (Rows.lines o.format names records.toList) ["Generation failed", fault.message]

/-- Checks a configuration, and summarizes it or generates rows for it. -/
def perform (r : Registry) (entropy : Nat → Rng) (o : Options) (c : Config) : Outcome :=
  match c.check r with
  | .error objection => .failed [] ("Configuration validation failed" :: objection.chain)
  | .ok _ =>
    if o.dryRun then
      ⟨0, "", c.summary ++ ["", "Dry run mode - configuration validated successfully"]⟩
    else generate r entropy o c

/-- The wording of a defect, from the outside in. -/
def defectChain (path : String) (defect : ConfigDefect) : List String :=
  let detail := match defect with
    | .malformed => "the text is not a TOML document"
    | .misfit => "the document does not describe settings and fields"
  [s!"Failed to parse config file: {path}", "Failed to parse TOML configuration", detail]

/-- The answer to a request for the configuration in a file, whose text is given or else the reason
why it could not be read. -/
def answer (r : Registry) (entropy : Nat → Rng) (path : String) (o : Options)
    (file : Except String String) : Outcome :=
  match file with
  | .error reason => .failed [] [s!"Failed to read config file: {path}", reason]
  | .ok text =>
    match Config.read text with
    | .error defect => .failed [] (defectChain path defect)
    | .ok c => perform r entropy o (o.override c)

end Program
end SynthData
