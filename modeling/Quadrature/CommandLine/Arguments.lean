import Quadrature.CommandLine.Outcome
import Quadrature.Decimal.Numeral
import Quadrature.Rule.Basic

/-!
# Arguments of calls

The arguments may stand in any order: four positional ones, and options that each
may be given once, but for the rules, which add up. They are read from left to right,
so that a request for the version counts only if nothing before it is wrong.
-/

namespace Quadrature

namespace CommandLine

/-- What has been given so far. -/
structure Arguments where
  function : Option String := none
  a : Option Float := none
  b : Option Float := none
  n : Option Nat := none
  config : Option String := none
  rules : List Rule := []
  noConvergence : Bool := false
  json : Bool := false
  digits : Option Nat := none
  seed : Option UInt64 := none

namespace Arguments

def orUsage {β : Type} : Option β → Except Exit β
  | some v => .ok v
  | none => .error .usage

/-- The next positional argument. -/
def addPositional (s : Arguments) (text : String) : Except Exit Arguments :=
  match s with
  | { function := none, .. } => return { s with function := some text }
  | { a := none, .. } => return { s with a := some (← orUsage (readFloat text)) }
  | { b := none, .. } => return { s with b := some (← orUsage (readFloat text)) }
  | { n := none, .. } => return { s with n := some (← orUsage (readNat UInt64.size text)) }
  | _ => throw .usage

/-- A number of places. Zero may have a minus sign. -/
def readDigits (text : String) : Option Nat :=
  match text.toList with
  | '-' :: cs => if !cs.isEmpty && cs.all (· == '0') then some 0 else none
  | _ => readNat UInt32.size text

def takesValue (name : String) : Bool :=
  ["config", "rules", "digits", "seed"].contains name

/-- An option with its value. -/
def addOption (s : Arguments) (name value : String) : Except Exit Arguments :=
  match name, s with
  | "config", { config := none, .. } =>
    if value = "" then throw .usage else return { s with config := some value }
  | "rules", _ => do
    let rules ← orUsage ((value.splitOn ",").mapM Rule.ofSpelling?)
    return { s with rules := s.rules ++ rules }
  | "digits", { digits := none, .. } => return { s with digits := some (← orUsage (readDigits value)) }
  | "seed", { seed := none, .. } => do
    return { s with seed := some (.ofNat (← orUsage (readNat UInt64.size value))) }
  | _, _ => throw .usage

/-- An option without a value. -/
def addFlag (s : Arguments) (name : String) : Except Exit Arguments :=
  match name, s with
  | "no-convergence", { noConvergence := false, .. } => return { s with noConvergence := true }
  | "json", { json := false, .. } => return { s with json := true }
  | "version", _ => throw .version
  | "help", _ => throw .help
  | _, _ => throw .usage

/-- Digits with at most one point among them and at most one power of ten, without
sign and not led by the point. -/
def isNumber (cs : List Char) : Bool :=
  match Numeral.scan (fun c => c == 'e' || c == 'E') cs with
  | some (n, []) => !n.whole.isEmpty && (n.power.bind (·.sign)).isNone
  | _ => false

/-- Whether an argument is no option: a minus sign may stand alone or lead a number. -/
def isValue (arg : String) : Bool :=
  match arg.toList with
  | ['-'] => true
  | '-' :: cs => isNumber cs
  | _ => true

/-- Name and value of an argument led by two minus signs. -/
def long? (arg : String) : Option (String × Option String) :=
  match arg.toList with
  | '-' :: '-' :: cs =>
    let name := String.ofList (cs.takeWhile (· ≠ '='))
    match cs.dropWhile (· ≠ '=') with
    | _ :: value => some (name, some (String.ofList value))
    | [] => some (name, none)
  | _ => none

/-- A value of its own follows an option that needs one; two minus signs end the
options. -/
def read (s : Arguments) : List String → Except Exit Arguments
  | [] => .ok s
  | arg :: rest =>
    if arg = "--" then rest.foldlM addPositional s
    else match long? arg with
      | some (name, some value) => (s.addOption name value).bind (read · rest)
      | some (name, none) =>
        if takesValue name then
          match rest with
          | value :: rest =>
            if isValue value then (s.addOption name value).bind (read · rest) else .error .usage
          | [] => .error .usage
        else (s.addFlag name).bind (read · rest)
      | none =>
        if isValue arg then (s.addPositional arg).bind (read · rest)
        else match arg.toList with
          | '-' :: 'V' :: _ => .error .version
          | '-' :: 'h' :: _ => .error .help
          | _ => .error .usage

end Arguments

end CommandLine

end Quadrature
