import Quadrature.Expression.Token

/-!
# Why a text is no expression

A text is refused for what stands at one position of the folded text, or
because its value is not finite at any probe.
-/

namespace Quadrature

inductive Fault where
  | unexpectedCharacter (c : Char)
  | malformedNumber
  | numberOutOfRange (literal : String)
  | emptyExpression
  | unexpectedEnd
  | unexpectedToken (t : Token)
  | unknownName (letters : String)
  | missingArgument (function : String)
  | unclosedParenthesis
  deriving DecidableEq

def Fault.message : Fault → String
  | unexpectedCharacter c => "unexpected character '" ++ c.toString ++ "'"
  | malformedNumber => "malformed number"
  | numberOutOfRange literal => "number '" ++ literal ++ "' is out of range"
  | emptyExpression => "empty expression"
  | unexpectedEnd => "unexpected end of input"
  | unexpectedToken t => "unexpected " ++ t.describe
  | unknownName letters => "unknown identifier '" ++ letters ++ "'"
  | missingArgument function => "function '" ++ function ++ "' must be followed by '('"
  | unclosedParenthesis => "expected ')' but found end of input"

structure SyntaxError where
  fault : Fault
  position : Nat
  deriving DecidableEq

inductive CompileError where
  | malformed (e : SyntaxError)
  | domain (normalized : String)
  deriving DecidableEq

def CompileError.message : CompileError → String
  | malformed e => "syntax error at position " ++ toString e.position ++ ": " ++ e.fault.message
  | domain normalized => "expression '" ++ normalized ++ "' is not finite at any probe point"

end Quadrature
