import Quadrature.Analysis.Convergence
import Quadrature.Analysis.Result
import Quadrature.Json.Record

/-!
# Rules and results in documents

A rule is written by its name. Points, results, convergence points and count ranges are
records; a table keyed by rule is an object whose keys are rule names.
-/

namespace Quadrature

namespace Rule

def toDocument (r : Rule) : Document :=
  .ofString r.name

/-- A name, or an object whose one member has the name as its key and is null. -/
def ofDocument? : Document → Option Rule
  | .string s => s.bind ofName?
  | .object [(k, .null)] => k.bind ofName?
  | _ => none

end Rule

namespace Point

def toDocument (p : Point) : Document :=
  .ofMembers [("x", .ofFloat p.x), ("y", .ofFloat p.y)]

def ofDocument? (d : Document) : Option Point := do
  let r ← Record.ofDocument? ["x", "y"] d
  return {
    x := ← r.required "x" Document.toFloat?
    y := ← r.required "y" Document.toFloat? }

end Point

namespace RuleResult

def toDocument (r : RuleResult) : Document :=
  .ofMembers [
    ("rule", r.rule.toDocument),
    ("value", .ofOption .ofFloat r.value),
    ("error_bound", .ofOption .ofFloat r.errorBound),
    ("absolute_error", .ofOption .ofFloat r.absoluteError),
    ("relative_error", .ofOption .ofFloat r.relativeError),
    ("failure", .ofOption .ofString r.failure)]

def ofDocument? (d : Document) : Option RuleResult := do
  let r ← Record.ofDocument?
    ["rule", "value", "error_bound", "absolute_error", "relative_error", "failure"] d
  return {
    rule := ← r.required "rule" Rule.ofDocument?
    value := ← r.optional "value" Document.toFloat?
    errorBound := ← r.optional "error_bound" Document.toFloat?
    absoluteError := ← r.optional "absolute_error" Document.toFloat?
    relativeError := ← r.optional "relative_error" Document.toFloat?
    failure := ← r.optional "failure" Document.toString? }

end RuleResult

namespace RuleTable

variable {β : Type}

def toDocument (item : β → Document) (t : RuleTable β) : Document :=
  .ofMembers (t.toList.map fun (rule, value) => (rule.name, item value))

/-- Of members with one key the last counts. -/
def ofDocument? (item : Document → Option β) : Document → Option (RuleTable β)
  | .object ms => do
    let entries ← ms.mapM fun (k, d) => do return (← k.bind Rule.ofName?, ← item d)
    return .ofList entries
  | _ => none

end RuleTable

namespace ConvergencePoint

def toDocument (p : ConvergencePoint) : Document :=
  .ofMembers [("n", .ofNat p.n), ("values", p.values.toDocument .ofFloat)]

def ofDocument? (d : Document) : Option ConvergencePoint := do
  let r ← Record.ofDocument? ["n", "values"] d
  return {
    n := ← r.required "n" (Document.toNat? UInt64.size)
    values := ← r.required "values" (RuleTable.ofDocument? Document.toFloat?) }

end ConvergencePoint

namespace CountRange

def toDocument (r : CountRange) : Document :=
  .ofMembers [("start", .ofNat r.start), ("end", .ofNat r.limit), ("step", .ofNat r.step)]

/-- Fields that are absent are those of the default range. -/
def ofDocument? (d : Document) : Option CountRange := do
  let r ← Record.ofDocument? ["start", "end", "step"] d
  return {
    start := ← r.withDefault "start" default.start (Document.toNat? UInt64.size)
    limit := ← r.withDefault "end" default.limit (Document.toNat? UInt64.size)
    step := ← r.withDefault "step" default.step (Document.toNat? UInt64.size) }

end CountRange

end Quadrature
