import Quadrature.Decimal.Numeral
import Quadrature.Expression.Error

/-!
# From characters to tokens

`Token.first` reads the longest lexeme at the head of a text and says how many
characters it takes; `tokensFrom` cuts a whole text into consecutive lexemes, so
no character is skipped or read twice.
-/

namespace Quadrature

namespace Token

/-- A literal whose value is not finite is refused. -/
def firstNumber (cs : List Char) : Except Fault (Token × Nat) :=
  match Numeral.scan (· == 'e') cs with
  | none => .error .malformedNumber
  | some (n, _) =>
    let value := n.value.toFloat
    if value.isFinite then .ok (number value, n.text.length)
    else .error (.numberOutOfRange (String.ofList n.text))

/-- A run of letters. `log` takes in the digits of `log10(`; before anything but
a parenthesis they are a factor. -/
def firstName (cs : List Char) : Token × Nat :=
  let letters := cs.takeWhile Char.isLower
  if letters = ['l', 'o', 'g'] && ['1', '0', '('].isPrefixOf (cs.dropWhile Char.isLower) then
    (name "log10", 5)
  else (name (String.ofList letters), letters.length)

/-- The first token of the text `c :: cs` and the length of its lexeme. -/
def first (c : Char) (cs : List Char) : Except Fault (Token × Nat) :=
  match c with
  | '+' => .ok (plus, 1)
  | '-' => .ok (minus, 1)
  | '/' => .ok (slash, 1)
  | '^' => .ok (caret, 1)
  | '(' => .ok (openParen, 1)
  | ')' => .ok (closeParen, 1)
  | '*' => if cs.head? = some '*' then .ok (caret, 2) else .ok (star, 1)
  | c =>
    if c.isDigit || c == '.' then firstNumber (c :: cs)
    else if c.isLower then .ok (firstName (c :: cs))
    else .error (.unexpectedCharacter c)

end Token

/-- The tokens of a text whose first character stands at `position`. -/
def tokensFrom (position : Nat) : List Char → Except SyntaxError (List PlacedToken)
  | [] => .ok []
  | c :: cs =>
    match Token.first c cs with
    | .error fault => .error ⟨fault, position⟩
    | .ok (token, length) =>
      (tokensFrom (position + length) (cs.drop (length - 1))).map (⟨token, position⟩ :: ·)
termination_by cs => cs.length

def tokens (cs : List Char) : Except SyntaxError (List PlacedToken) :=
  tokensFrom 0 cs

end Quadrature
