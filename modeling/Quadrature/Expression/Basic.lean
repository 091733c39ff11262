/-!
# Expressions

Expression trees in one variable. Names that mean the same function give the
same tree, and a reciprocal function is a quotient.
-/

namespace Quadrature

inductive Constant where
  | e
  | pi
  deriving DecidableEq

namespace Constant

def name : Constant → String
  | e => "e"
  | pi => "pi"

def value : Constant → Float
  | e => 2.718281828459045
  | pi => 3.141592653589793

end Constant

inductive Operator where
  | add
  | sub
  | mul
  | div
  | pow
  deriving DecidableEq

inductive NamedFunction where
  | sin
  | cos
  | tan
  | asin
  | acos
  | atan
  | sinh
  | cosh
  | tanh
  | sqrt
  | abs
  | exp
  | ln
  | log10
  deriving DecidableEq

def NamedFunction.name : NamedFunction → String
  | sin => "sin"
  | cos => "cos"
  | tan => "tan"
  | asin => "asin"
  | acos => "acos"
  | atan => "atan"
  | sinh => "sinh"
  | cosh => "cosh"
  | tanh => "tanh"
  | sqrt => "sqrt"
  | abs => "abs"
  | exp => "exp"
  | ln => "ln"
  | log10 => "log10"

inductive Expression where
  | number (value : Float)
  | var
  | const (c : Constant)
  | neg (operand : Expression)
  | binary (op : Operator) (lhs rhs : Expression)
  | call (f : NamedFunction) (argument : Expression)
  deriving DecidableEq

end Quadrature
