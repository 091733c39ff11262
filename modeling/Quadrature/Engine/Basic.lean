import Quadrature.Analysis.Convergence
import Quadrature.Configuration
import Quadrature.Engine.Subject
import Quadrature.Report.Basic

/-!
# Engines

An engine answers requests with reports. A request that cannot be answered leaves it
as it was; a rule that fails has its failure in the report. The rules keep their
state from one report to the next.
-/

namespace Quadrature

variable [Elementary Float]

structure Engine where
  configuration : Configuration
  registry : Registry
  /-- The counts of the sweep, fixed when the engine is made. -/
  range : CountRange

namespace Engine

/-- An engine with all rules. Monte Carlo starts from `entropy` if the settings have
no seed. -/
def ofConfiguration (c : Configuration) (entropy : UInt64) : Engine :=
  ⟨c, .complete (c.settings.seed.getD entropy), c.settings.range⟩

/-! ## What a request needs -/

def methods (e : Engine) (rules : List Rule) : Except (ParameterError Float) (List Method) :=
  rules.mapM fun rule =>
    match e.registry.get? rule with
    | some m => .ok m
    | none => .error (.unregistered rule)

/-- The methods and the function of a request that can be answered. -/
def prepare (e : Engine) (r : Request) : Except EngineError (List Method × Subject) := do
  r.validate.mapError .parameter
  let methods ← (e.methods r.rules).mapError .parameter
  methods.forM fun m => (m.rule.check r.a r.b r.n).mapError .parameter
  return (methods, ← Subject.ofSource e.configuration.catalogue r.function)

/-! ## Running the rules -/

/-- What one rule contributes to a report, and the method as it is afterwards. -/
structure Run where
  result : RuleResult
  samples : List Point
  method : Method

/-- A bound that cannot be found is left out. -/
def resultOf (m : Method) (f : Integrand Float) (a b : Float) (n : Nat) (exact : Option Float) :
    RuleResult × Method :=
  match m.integrate f a b n with
  | (.error e, m) => (.ofFailure m.rule e.message, m)
  | (.ok value, m) =>
    let (bound, m) := m.errorBound f a b n
    (.ofValue m.rule value (bound.toOption.join) exact, m)

/-- The samples are asked for after the value, whether there is one or not. -/
def runOf (m : Method) (f : Integrand Float) (a b : Float) (n : Nat) (exact : Option Float) :
    Run :=
  let (result, m) := resultOf m f a b n exact
  let (samples, m) := m.samples f a b n
  ⟨result, samples.toOption.getD [], m⟩

def calculate (e : Engine) (stamp : Stamp) (r : Request) : Except EngineError Report × Engine :=
  match e.prepare r with
  | .error cause => (.error cause, e)
  | .ok (methods, subject) =>
    let exact := subject.exact r.a r.b
    let runs := methods.map fun m => runOf m subject.evaluate r.a r.b r.n exact
    let methods := runs.map Run.method
    let (points, methods) :=
      if r.convergence then sweep subject.evaluate r.a r.b e.range.counts methods
      else ([], methods)
    let report : Report := {
      stamp
      label := subject.label
      normalized := subject.normalized
      description := subject.description
      a := r.a
      b := r.b
      n := r.n
      exact
      results := runs.map Run.result
      convergence := points
      samples := runs.flatMap Run.samples
      digits := e.configuration.settings.digits }
    (.ok report, { e with registry := methods.foldl .insert e.registry })

end Engine

end Quadrature
