import Quadrature.Derivative
import Quadrature.Expression.Formula
import Quadrature.Json.Record
import Quadrature.Rule.Grid
import Quadrature.Scalar.Binary64

/-!
# Catalogue entries

An entry is a formula under a name, with what is known of its integral: an
antiderivative and the points where the formula is singular. An exact value is
given only for an interval that has none of these points and on which the formula
has values on a grid.
-/

namespace Quadrature

/-! ## Errors

A document could not be read, a text in it is no formula, or a name is not there.
-/

inductive CatalogueError where
  | missingFile
  | malformedDocument
  | unknownName (name : String)
  | uncompiled (name : String) (cause : CompileError)
  deriving DecidableEq

def CatalogueError.message : CatalogueError → String
  | missingFile => "No such file or directory (os error 2)"
  | malformedDocument => "malformed document"
  | unknownName name => "key '" ++ name ++ "' not found"
  | uncompiled name cause => "entry '" ++ name ++ "' does not compile: " ++ cause.message

/-! ## Entries -/

variable [Elementary Float]

structure Entry where
  name : String
  label : String
  description : String
  formula : Formula
  antiderivative : Option Formula
  singularities : List Float
  deriving DecidableEq

namespace Entry

/-- What is known of an entry before anything else in its document is read. In the
positional form it is all there is. -/
structure Heading where
  name : String
  deriving DecidableEq

namespace Heading

def toDocument (h : Heading) : Document :=
  .ofMembers [("name", .ofString h.name)]

def ofDocument? (d : Document) : Option Heading := do
  return ⟨← (← Record.ofDocument? ["name"] d).required "name" Document.toString?⟩

end Heading

/-- The texts of an entry. -/
structure Draft where
  name : String
  label : String
  expression : String
  antiderivative : Option String
  description : String
  singularities : List Float

def compileText (name source : String) : Except CatalogueError Formula :=
  (Formula.compile source).mapError (.uncompiled name)

def ofDraft (d : Draft) : Except CatalogueError Entry := do
  return {
    name := d.name
    label := d.label
    description := d.description
    formula := ← compileText d.name d.expression
    antiderivative := ← d.antiderivative.mapM (compileText d.name)
    singularities := d.singularities }

/-- The label of an entry is its expression unless it has one of its own. -/
def Draft.ofDocument? (d : Document) : Option Draft := do
  let r ← Record.ofDocument?
    ["name", "label", "expression", "antiderivative", "description", "singularities"] d
  let expression ← r.required "expression" Document.toString?
  let label ← r.withDefault "label" none (Document.toOption? Document.toString?)
  return {
    name := ← r.required "name" Document.toString?
    label := label.getD expression
    expression
    antiderivative := ← r.withDefault "antiderivative" none (Document.toOption? Document.toString?)
    description := ← r.withDefault "description" "" Document.toString?
    singularities := ← r.withDefault "singularities" [] (Document.toList? Document.toFloat?) }

def ofDocument (d : Document) : Except CatalogueError Entry :=
  match Draft.ofDocument? d with
  | some draft => ofDraft draft
  | none => .error .malformedDocument

/-! ## Exact values -/

def evaluate (e : Entry) : Integrand Float :=
  e.formula.evaluate

def isIntegrableOn (e : Entry) (a b : Float) : Bool :=
  !(e.singularities.any fun x => a ≤ x && x ≤ b)
    && (Grid.mk a b coarseSteps).nodes.all fun x => (e.evaluate x).isOk

/-- The difference of the antiderivative at the end points. -/
def exact (e : Entry) (a b : Float) : Option Float := do
  let antiderivative ← e.antiderivative
  guard (e.isIntegrableOn a b)
  let upper ← (antiderivative.evaluate b).toOption
  let lower ← (antiderivative.evaluate a).toOption
  guard (upper - lower).isFinite
  return upper - lower

end Entry

end Quadrature
