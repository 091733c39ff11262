import Quadrature.Expression.Evaluation
import Quadrature.Expression.Parser
import Quadrature.Expression.Printer
import Quadrature.Text

/-!
# Formulas

A formula is a text that spells an expression with a finite value at some probe
point.
-/

namespace Quadrature

variable [Elementary Float]

structure Formula where
  /-- The text as it was given. -/
  source : String
  body : Expression
  deriving DecidableEq

namespace Formula

def probes : List Float := [0.1, 1.0, 2.0, 3.0, 5.0]

def normalized (f : Formula) : String :=
  f.body.text

def evaluate (f : Formula) : Integrand Float :=
  f.body.evaluate

def compileAt (probes : List Float) (source : String) : Except CompileError Formula := do
  let body ← (Expression.ofFolded (Text.foldChars source.toList)).mapError .malformed
  if probes.any fun x => (body.evaluate x).isOk then return ⟨source, body⟩
  else throw (.domain body.text)

def compile (source : String) : Except CompileError Formula :=
  compileAt probes source

end Formula

end Quadrature
