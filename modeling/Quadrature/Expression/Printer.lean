import Quadrature.Decimal.Shortest
import Quadrature.Expression.Basic

/-!
# Normalized text

The text of an expression with explicit products, `^` for powers and the fewest
parentheses that precedence asks for. Powers group to the right, all other
operators to the left.
-/

namespace Quadrature

namespace Operator

def symbol : Operator → String
  | add => "+"
  | sub => "-"
  | mul => "*"
  | div => "/"
  | pow => "^"

def precedence : Operator → Nat
  | add | sub => 1
  | mul | div => 2
  | pow => 4

end Operator

namespace Expression

/-- How tightly the outermost construct of an expression binds. -/
def precedence : Expression → Nat
  | binary op _ _ => op.precedence
  | neg _ => 3
  | _ => 5

def parenthesized (text : String) (parens : Bool) : String :=
  if parens then "(" ++ text ++ ")" else text

def text : Expression → String
  | number value => plainText value
  | var => "x"
  | const c => c.name
  | neg t => "-" ++ parenthesized t.text (t.precedence < 3)
  | call f t => f.name ++ "(" ++ t.text ++ ")"
  | binary .pow l r =>
    parenthesized l.text (l.precedence ≤ 4) ++ "^" ++ parenthesized r.text (r.precedence < 4)
  | binary op l r =>
    parenthesized l.text (l.precedence < op.precedence) ++ op.symbol
      ++ parenthesized r.text (r.precedence ≤ op.precedence)

end Expression

end Quadrature
