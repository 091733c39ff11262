import Quadrature.CommandLine.Arguments
import Quadrature.Engine.Basic
import Quadrature.Report.Record
import Quadrature.Report.Text

/-!
# Calls

A call asks for one report. Its outcome depends on the file it names and on what
chance and time give it.
-/

namespace Quadrature

namespace CommandLine

/-- A call that computes something. -/
structure Call where
  request : Request
  /-- The path of the file with the configuration. -/
  config : Option String
  seed : Option UInt64
  digits : Option Nat
  json : Bool

namespace Call

/-- Without rules all are compared. -/
def ofArguments (args : List String) : Except Exit Call := do
  let s ← Arguments.read {} args
  match s.function, s.a, s.b, s.n with
  | some function, some a, some b, some n =>
    return {
      request := .ofRules (.ofText function) a b n
        (if s.rules.isEmpty then Rule.all else s.rules) !s.noConvergence
      config := s.config
      seed := s.seed
      digits := s.digits
      json := s.json }
  | _, _, _, _ => throw .usage

variable [Elementary Float]

/-- The settings of the call go before those of the file, which has `content`. -/
def configuration (c : Call) (content : Option String) : Except CatalogueError Configuration := do
  let (outcome, configuration) :=
    if c.config.isSome then Configuration.initial.applyFile content
    else (.ok (), Configuration.initial)
  outcome
  let settings := configuration.settings
  return { configuration with settings := { settings with
    seed := c.seed.or settings.seed
    digits := c.digits.getD settings.digits } }

def report (c : Call) (content : Option String) (entropy : UInt64) (stamp : Stamp) :
    Except EngineError Report := do
  let configuration ← (c.configuration content).mapError .catalogue
  (Engine.ofConfiguration configuration entropy |>.calculate stamp c.request).1

def outcome (c : Call) (content : Option String) (entropy : UInt64) (stamp : Stamp) : Outcome :=
  match c.report content entropy stamp with
  | .ok r => ⟨0, if c.json then r.json ++ "\n" else r.text, ""⟩
  | .error e => ⟨1, "", "error: " ++ e.message ++ "\n"⟩

end Call

end CommandLine

end Quadrature
