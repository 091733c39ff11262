import Quadrature.Expression.Basic
import Quadrature.Integrand
import Quadrature.Scalar.Basic

/-!
# Evaluation

The value of an expression at a point. Arguments outside a function's domain and
zero divisors are refused before the operation, every other result is checked
after it; of two failing operands the left one is reported.
-/

namespace Quadrature

variable [Elementary Float]

namespace NamedFunction

/-- The real numbers at which the function is defined. -/
def admits : NamedFunction → Float → Bool
  | asin, x | acos, x => !(1.0 < x.abs)
  | sqrt, x => !(x < 0.0)
  | ln, x | log10, x => !(x ≤ 0.0)
  | _, _ => true

def value : NamedFunction → Float → Float
  | sin => Elementary.sin
  | cos => Elementary.cos
  | tan => Elementary.tan
  | asin => Elementary.asin
  | acos => Elementary.acos
  | atan => Elementary.atan
  | sinh => Elementary.sinh
  | cosh => Elementary.cosh
  | tanh => Elementary.tanh
  | sqrt => Elementary.sqrt
  | abs => Float.abs
  | exp => Elementary.exp
  | ln => Elementary.ln
  | log10 => Elementary.log10

def apply (f : NamedFunction) (x : Float) : Except (EvaluationError Float) Float :=
  if f.admits x then checked f.name (f.value x) else .error (.domain f.name x)

end NamedFunction

def Operator.apply (op : Operator) (l r : Float) : Except (EvaluationError Float) Float :=
  match op with
  | .add => checked "addition" (l + r)
  | .sub => checked "subtraction" (l - r)
  | .mul => checked "multiplication" (l * r)
  | .div => if r == 0.0 then .error .divisionByZero else checked "division" (l / r)
  | .pow =>
    if l == 0.0 && r < 0.0 then .error .divisionByZero
    else checked "power" (Elementary.power l r)

def Expression.evaluate : Expression → Integrand Float
  | number value, _ => .ok value
  | var, x => .ok x
  | const c, _ => .ok c.value
  | neg t, x => do return -(← t.evaluate x)
  | call f t, x => do f.apply (← t.evaluate x)
  | binary op l r, x => do
    let l ← l.evaluate x
    let r ← r.evaluate x
    op.apply l r

end Quadrature
