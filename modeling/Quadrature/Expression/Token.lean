import Quadrature.Decimal.Shortest

/-!
# Tokens

The tokens of an expression. `^` and `**` are the same token.
-/

namespace Quadrature

inductive Token where
  | number (value : Float)
  | name (letters : String)
  | plus
  | minus
  | star
  | slash
  | caret
  | openParen
  | closeParen
  deriving DecidableEq

namespace Token

/-- A token that can begin an operand without a sign. Directly after an operand
it means a product. -/
def startsOperand : Token → Bool
  | number _ | name _ | openParen => true
  | _ => false

/-- The name of a token in messages. -/
def describe : Token → String
  | number value => "number " ++ plainText value
  | name letters => "identifier '" ++ letters ++ "'"
  | plus => "'+'"
  | minus => "'-'"
  | star => "'*'"
  | slash => "'/'"
  | caret => "'^'"
  | openParen => "'('"
  | closeParen => "')'"

end Token

/-- A token and the number of characters before it. -/
structure PlacedToken where
  token : Token
  position : Nat
  deriving DecidableEq

end Quadrature
