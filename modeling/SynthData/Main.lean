import SynthData.Command.Run

/-!
# The program

Reads the command line, the environment and the file, and writes what the run leaves behind.
-/

namespace SynthData.Program

/-- The number of a system's failure, with what is said about it. -/
def failureOf : IO.Error → Option (UInt32 × String)
  | .noFileOrDirectory _ code details | .permissionDenied _ code details
  | .inappropriateType _ code details | .invalidArgument _ code details
  | .resourceExhausted _ code details | .interrupted _ code details
  | .otherError code details | .hardwareFault code details
  | .resourceBusy code details => some (code, details)
  | _ => none

/-- What the system says about a failure. A number may come with its sign turned. -/
def reason (e : IO.Error) : String :=
  match failureOf e with
  | none => toString e
  | some (code, details) =>
    let number := if code < 0x80000000 then code else 0 - code
    s!"{text number details} (os error {number})"
where
  /-- The system's own words, where others are in use for the same failure. -/
  text : UInt32 → String → String
    | 2, _ => "No such file or directory"
    | 13, _ => "Permission denied"
    | 20, _ => "Not a directory"
    | 21, _ => "Is a directory"
    | 36, _ => "File name too long"
    | 40, _ => "Too many levels of symbolic links"
    | _, details => details.capitalize

/-- The text of a file, or the reason why it cannot be read. -/
def readFile (path : String) : IO (Except String String) := do
  match ← (IO.FS.readBinFile path).toBaseIO with
  | .error e => return .error (reason e)
  | .ok bytes =>
    match String.fromUTF8? bytes with
    | some text => return .ok text
    | none => return .error "stream did not contain valid UTF-8"

/-- Streams that nobody can predict. -/
def unpredictable : IO (Nat → Rng) := do
  let bytes ← IO.getRandomBytes 8
  let seed := bytes.foldl (fun n b => n * 256 + b.toUInt64) 0
  return fun n => Rng.ofSeed (seed + UInt64.ofNat n * 0x9e3779b97f4a7c15)

/-- Writes what a run leaves behind. -/
def leave (o : Outcome) : IO UInt32 := do
  IO.print o.out
  (← IO.getStdout).flush
  for message in o.messages do
    IO.eprintln message
  return o.code.toUInt32

end SynthData.Program

open SynthData SynthData.Program in
/-- Runs the program. -/
def main (arguments : List String) : IO UInt32 := do
  match request .builtins arguments (← IO.getEnv Options.seedVariable) with
  | .answer outcome => leave outcome
  | .file path options =>
    let file ← readFile path
    leave (answer .builtins (← unpredictable) path options file)
