import Quadrature.Analysis.Record
import Quadrature.Json.Parser
import Quadrature.Json.Printer
import Quadrature.Report.Basic
import Quadrature.Settings

/-!
# Reports in documents

A document holds all of a report but the places of its numbers, which are those of
the default settings when it is read.
-/

namespace Quadrature

namespace Report

def toDocument (r : Report) : Document :=
  .ofMembers [
    ("id", .ofString r.stamp.id.text),
    ("created_at", .ofString r.stamp.createdAt.text),
    ("function_label", .ofString r.label),
    ("normalized_expression", .ofString r.normalized),
    ("description", .ofOption .ofString r.description),
    ("a", .ofFloat r.a),
    ("b", .ofFloat r.b),
    ("n", .ofNat r.n),
    ("exact", .ofOption .ofFloat r.exact),
    ("results", .ofList RuleResult.toDocument r.results),
    ("convergence", .ofList ConvergencePoint.toDocument r.convergence),
    ("monte_carlo_samples", .ofList Point.toDocument r.samples)]

def ofDocument? (d : Document) : Option Report := do
  let r ← Record.ofDocument?
    ["id", "created_at", "function_label", "normalized_expression", "description", "a", "b", "n",
     "exact", "results", "convergence", "monte_carlo_samples"] d
  return {
    stamp := {
      id := ← r.required "id" fun d => d.toString?.bind Identifier.ofText?
      createdAt := ← r.required "created_at" fun d => d.toString?.bind Instant.ofText? }
    label := ← r.required "function_label" Document.toString?
    normalized := ← r.required "normalized_expression" Document.toString?
    description := ← r.optional "description" Document.toString?
    a := ← r.required "a" Document.toFloat?
    b := ← r.required "b" Document.toFloat?
    n := ← r.required "n" (Document.toNat? UInt64.size)
    exact := ← r.optional "exact" Document.toFloat?
    results := ← r.required "results" (Document.toList? RuleResult.ofDocument?)
    convergence := ← r.required "convergence" (Document.toList? ConvergencePoint.ofDocument?)
    samples := ← r.required "monte_carlo_samples" (Document.toList? Point.ofDocument?)
    digits := Settings.default.digits }

def json (r : Report) : String :=
  r.toDocument.indented

def ofJson? (text : String) : Option Report := do
  ofDocument? (← Document.parse? text)

end Report

end Quadrature
