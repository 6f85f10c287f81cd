import SynthData.Decimal.Text
import SynthData.Fault.Basic
import SynthData.Strategy.Registry
import SynthData.Text.Basic

/-!
# Strategies by name

Configurations name their strategies, with or without parameters.
-/

namespace SynthData

/-! ## Calls

A strategy with parameters is written like a call: a name and, in parentheses, numbers with commas
between them. Blanks around the call, the name and the numbers do not matter. A text without an
opening parenthesis is a name without parameters.
-/

/-- A name with parameters. -/
structure Call where
  name : String
  arguments : List Float

namespace Call

open Text

/-- The numbers between the parentheses of a call. -/
def readArguments (call : String) : List (List Char) → Except Fault (List Float)
  | [] => .ok []
  | piece :: pieces =>
    let argument := trimChars piece
    match Decimal.readChars? argument with
    | none => .error (.badArgument (String.ofList argument) call)
    | some x =>
      match readArguments call pieces with
      | .error fault => .error fault
      | .ok xs => .ok (x.toFloat :: xs)

/-- The text before a closing parenthesis at the very end. -/
def beforeClosing? (cs : List Char) : Option (List Char) :=
  if cs.getLast? = some ')' then some cs.dropLast else none

/-- Reads a call. -/
def read (s : String) : Except Fault Call :=
  let cs := trimChars s.toList
  let call := String.ofList cs
  match cs.dropWhile (· ≠ '(') with
  | [] => .ok ⟨call, []⟩
  | _ :: rest =>
    match beforeClosing? rest with
    | none => .error (.unclosedCall call)
    | some inner =>
      let name := String.ofList (trimChars (cs.takeWhile (· ≠ '(')))
      if (trimChars inner).isEmpty then .ok ⟨name, []⟩
      else
        match readArguments call (splitChars ',' inner) with
        | .error fault => .error fault
        | .ok arguments => .ok ⟨name, arguments⟩

end Call

/-! ## Resolving names

Configurations name their strategies. A plain name is looked up in a registry. A name with
parameters, and the weight functions, distribution functions and item weights behind `weight:`,
`cdf:` and `feature:`, are made when they are named.
-/

/-- What a name was resolved to: a registered strategy, or one made for the occasion. -/
inductive Resolved where
  | registered (entry : Entry)
  | made (strategy : Strategy)

/-- The strategy itself. -/
def Resolved.strategy : Resolved → Strategy
  | registered entry => entry.strategy
  | made strategy => strategy

/-- Registers under a name what another name was resolved to. -/
def Registry.bind (r : Registry) (name : String) : Resolved → Registry
  | .registered entry => r.share name entry
  | .made strategy => r.register name strategy

namespace Strategy

open Text

/-- Two to the power of 63, as a double. -/
def integerLimit : Float := 9223372036854775808

/-- A parameter that must be a whole number. Its size as a word has lost the fraction, if there was
one. -/
def integer (x : Float) : Except Fault Int64 :=
  let size := x.abs.toUInt64
  if !x.isFinite || integerLimit < x.abs || size.toFloat != x.abs then .error (.notInteger x)
  else .ok (.ofIntClamp (if x < 0 then -size.toNat else size.toNat))

/-- A parameter that must be a whole number and not negative. -/
def count (x : Float) : Except Fault UInt64 := do
  let n ← integer x
  if n < 0 then .error (.notCount n) else .ok n.toUInt64

/-- A parameter that is the size of a pool. -/
def poolSize (x : Float) : Except Fault Nat := do
  let n ← count x
  if n = 0 then .error .poolSizeZero else .ok n.toNat

/-- A parameter that is a number of draws. -/
def drawCount (x : Float) : Except Fault Strategy := do
  let n ← count x
  if n.toNat < UInt32.size then ofDraws (UInt32.ofNat n.toNat) else .error (.tooManyDraws x)

/-- A strategy with parameters. -/
def ofCall (text : String) : Except Fault Strategy := do
  let call ← Call.read text
  match call.name, call.arguments with
  | "step", [delta] => return step (← integer delta) none none
  | "step", [delta, initial] => return step (← integer delta) (some initial) none
  | "step", [delta, initial, limit] => return step (← integer delta) (some initial) (some limit)
  | "shuffle", [stride] => ofStride (← count stride)
  | "head", [size] => ofSize (← count size)
  | "single", [size] => ofSize (← count size)
  | "randomWalk", [least, most] =>
    let least ← integer least
    let most ← integer most
    ofSteps least most none
  | "randomWalk", [least, most, initial] =>
    let least ← integer least
    let most ← integer most
    ofSteps least most (some initial)
  | "cumulated", [draws] => drawCount draws
  | "expand", [pool] => return expand (some (← poolSize pool)) 0
  | "expand", [pool, quota] => return expand (some (← poolSize pool)) quota
  | _, _ => .error (.unknownSequence text)

/-- A weight function. -/
def ofWeightCall (text : String) : Except Fault Strategy := do
  let call ← Call.read text
  match call.name, call.arguments with
  | "constant", [] => return weight (WeightFunction.constant 1)
  | "constant", [value] => return weight (WeightFunction.constant value)
  | "linear", [offset, slope] => return weight (WeightFunction.linear offset slope)
  | "gaussian", [average, deviation] =>
    return weight (← WeightFunction.gaussian average deviation)
  | "exponential", [scale, rate] => return weight (WeightFunction.exponential scale rate)
  | _, _ => .error (.unknownWeight text)

/-- A cumulative distribution function. -/
def ofCumulativeCall (text : String) : Except Fault Strategy := do
  let call ← Call.read text
  match call.name, call.arguments with
  | "exponential", [rate] => return inverse (← CumulativeFunction.exponential rate)
  | "pareto", [scale, shape] => return inverse (← CumulativeFunction.pareto scale shape)
  | _, _ => .error (.unknownCumulative text)

/-- Weights by a field of the value. -/
def ofFeature (feature : String) : Except Fault Strategy :=
  let feature := trimBlanks feature
  if feature.isEmpty then .error .featureWithoutName
  else .ok (itemWeight (featureWeight feature))

end Strategy

/-- Resolves the name of a strategy. Blanks around it do not matter. -/
def Registry.resolve (r : Registry) (name : String) : Except Fault Resolved :=
  let cs := Text.trimChars name.toList
  let trimmed := String.ofList cs
  match Text.afterStart? "weight:".toList cs with
  | some rest => (Strategy.ofWeightCall (String.ofList rest)).map .made
  | none =>
    match Text.afterStart? "cdf:".toList cs with
    | some rest => (Strategy.ofCumulativeCall (String.ofList rest)).map .made
    | none =>
      match Text.afterStart? "feature:".toList cs with
      | some rest => (Strategy.ofFeature (String.ofList rest)).map .made
      | none =>
        if cs.contains '(' then (Strategy.ofCall trimmed).map .made
        else (r.get trimmed).map .registered

/-- The strategy that a name stands for. -/
def Registry.strategy (r : Registry) (name : String) : Except Fault Strategy :=
  (r.resolve name).map Resolved.strategy

end SynthData
