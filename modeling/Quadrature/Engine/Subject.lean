import Quadrature.Catalogue.Basic
import Quadrature.Request

/-!
# Subjects

The function of a calculation, with what a report says of it: a formula made for
the request, or a catalogue entry, which alone may have an exact integral.
-/

namespace Quadrature

variable [Elementary Float]

/-- Why a calculation gives no report. -/
inductive EngineError where
  | parameter (e : ParameterError Float)
  | compile (e : CompileError)
  | catalogue (e : CatalogueError)
  deriving DecidableEq

def EngineError.message : EngineError → String
  | parameter e => e.message
  | compile e => e.message
  | catalogue e => e.message

inductive Subject where
  | formula (f : Formula)
  | entry (e : Entry)

namespace Subject

def ofSource (c : Catalogue) : FunctionSource → Except EngineError Subject
  | .expression text => ((Formula.compile text).mapError .compile).map formula
  | .predefined name => ((c.get name).mapError .catalogue).map entry

def label : Subject → String
  | formula f => f.source
  | entry e => e.label

def normalized : Subject → String
  | formula f => f.normalized
  | entry e => e.formula.normalized

def description : Subject → Option String
  | formula _ => none
  | entry e => some e.description

def evaluate : Subject → Integrand Float
  | formula f => f.evaluate
  | entry e => e.evaluate

def exact (s : Subject) (a b : Float) : Option Float :=
  match s with
  | formula _ => none
  | entry e => e.exact a b

end Subject

end Quadrature
