import Quadrature.Expression.Basic
import Quadrature.Expression.Lexer

/-!
# From tokens to expressions

    sum     := product (('+' | '-') product)*
    product := signed (('*' | '/') signed | power)*
    signed  := ('-' | '+') signed | power
    power   := primary ('^' signed)?
    primary := number | 'x' | 'e' | 'pi' | function '(' sum ')' | '(' sum ')'

A factor without a sign may follow a factor directly. The reader takes one token
at a time and keeps what is still open on a stack: a state is either in need of
an operand, or in need of the parenthesis after a function's name, or holds the
primary it has just read.
-/

namespace Quadrature

/-- What a name stands for when it is called: a function, or its reciprocal. -/
structure Callee where
  function : NamedFunction
  reciprocal : Bool
  deriving DecidableEq

def Callee.apply (c : Callee) (argument : Expression) : Expression :=
  let call := Expression.call c.function argument
  if c.reciprocal then .binary .div (.number 1.0) call else call

inductive Meaning where
  | var
  | const (c : Constant)
  | callee (c : Callee)
  deriving DecidableEq

def Meaning.ofName? : String → Option Meaning
  | "x" => some .var
  | "e" => some (.const .e)
  | "pi" => some (.const .pi)
  | "sin" => some (.callee ⟨.sin, false⟩)
  | "cos" => some (.callee ⟨.cos, false⟩)
  | "tan" => some (.callee ⟨.tan, false⟩)
  | "csc" => some (.callee ⟨.sin, true⟩)
  | "sec" => some (.callee ⟨.cos, true⟩)
  | "cot" => some (.callee ⟨.tan, true⟩)
  | "asin" | "arcsin" => some (.callee ⟨.asin, false⟩)
  | "acos" | "arccos" => some (.callee ⟨.acos, false⟩)
  | "atan" | "arctan" => some (.callee ⟨.atan, false⟩)
  | "sinh" => some (.callee ⟨.sinh, false⟩)
  | "cosh" => some (.callee ⟨.cosh, false⟩)
  | "tanh" => some (.callee ⟨.tanh, false⟩)
  | "sqrt" => some (.callee ⟨.sqrt, false⟩)
  | "abs" => some (.callee ⟨.abs, false⟩)
  | "exp" => some (.callee ⟨.exp, false⟩)
  | "ln" => some (.callee ⟨.ln, false⟩)
  | "log" | "log10" => some (.callee ⟨.log10, false⟩)
  | _ => none

/-- A power of the constant `e` is the exponential function. -/
def powerOf (base exponent : Expression) : Expression :=
  if base = .const .e then .call .exp exponent else .binary .pow base exponent

/-- A construct that waits for the operand being read. A group without a callee
is a plain pair of parentheses. -/
inductive Frame where
  | sum (op : Operator) (lhs : Expression)
  | product (op : Operator) (lhs : Expression)
  | negation
  | power (base : Expression)
  | group (callee : Option Callee)
  deriving DecidableEq

abbrev Stack := List Frame

/-- Closes the powers and signs that end with `t`. -/
def closeSigned : Stack → Expression → Stack × Expression
  | .power base :: stack, t => closeSigned stack (powerOf base t)
  | .negation :: stack, t => closeSigned stack (.neg t)
  | stack, t => (stack, t)

/-- Closes everything up to the product that ends with `t`. -/
def closeProduct (stack : Stack) (t : Expression) : Stack × Expression :=
  match closeSigned stack t with
  | (.product op lhs :: stack, t) => (stack, .binary op lhs t)
  | other => other

/-- Closes everything up to the sum that ends with `t`. -/
def closeSum (stack : Stack) (t : Expression) : Stack × Expression :=
  match closeProduct stack t with
  | (.sum op lhs :: stack, t) => (stack, .binary op lhs t)
  | other => other

inductive ParseState where
  | operand (stack : Stack)
  | argument (function : String) (callee : Callee) (stack : Stack)
  | operator (stack : Stack) (primary : Expression)
  deriving DecidableEq

namespace ParseState

def start : ParseState := operand []

/-- Reads the token with which an operand begins. -/
def readOperand (stack : Stack) : Token → Except Fault ParseState
  | .number value => .ok (operator stack (.number value))
  | .name letters =>
    match Meaning.ofName? letters with
    | some .var => .ok (operator stack .var)
    | some (.const c) => .ok (operator stack (.const c))
    | some (.callee c) => .ok (argument letters c stack)
    | none => .error (.unknownName letters)
  | .openParen => .ok (operand (.group none :: stack))
  | .minus => .ok (operand (.negation :: stack))
  | .plus => .ok (operand stack)
  | t => .error (.unexpectedToken t)

/-- Reads the token after a primary. -/
def readOperator (stack : Stack) (primary : Expression) : Token → Except Fault ParseState
  | .plus => let (stack, lhs) := closeSum stack primary; .ok (operand (.sum .add lhs :: stack))
  | .minus => let (stack, lhs) := closeSum stack primary; .ok (operand (.sum .sub lhs :: stack))
  | .star =>
    let (stack, lhs) := closeProduct stack primary; .ok (operand (.product .mul lhs :: stack))
  | .slash =>
    let (stack, lhs) := closeProduct stack primary; .ok (operand (.product .div lhs :: stack))
  | .caret => .ok (operand (.power primary :: stack))
  | .closeParen =>
    match closeSum stack primary with
    | (.group none :: stack, t) => .ok (operator stack t)
    | (.group (some c) :: stack, t) => .ok (operator stack (c.apply t))
    | _ => .error (.unexpectedToken .closeParen)
  | t => let (stack, lhs) := closeProduct stack primary; readOperand (.product .mul lhs :: stack) t

def step : ParseState → Token → Except Fault ParseState
  | operand stack, t => readOperand stack t
  | argument _ callee stack, .openParen => .ok (operand (.group (some callee) :: stack))
  | argument function _ _, _ => .error (.missingArgument function)
  | operator stack primary, t => readOperator stack primary t

/-- The expression, when the tokens may end here. -/
def finish : ParseState → Except Fault Expression
  | operand _ => .error .unexpectedEnd
  | argument function _ _ => .error (.missingArgument function)
  | operator stack primary =>
    match closeSum stack primary with
    | ([], t) => .ok t
    | _ => .error .unclosedParenthesis

/-- Reads the remaining tokens of a text that ends at position `ending`. -/
def run (ending : Nat) : ParseState → List PlacedToken → Except SyntaxError Expression
  | state, [] => state.finish.mapError (⟨·, ending⟩)
  | state, t :: ts =>
    match state.step t.token with
    | .error fault => .error ⟨fault, t.position⟩
    | .ok state => run ending state ts

end ParseState

namespace Expression

/-- The expression that tokens of a text of `ending` characters spell. -/
def ofTokens (ending : Nat) (ts : List PlacedToken) : Except SyntaxError Expression :=
  if ts.isEmpty then .error ⟨.emptyExpression, 0⟩ else ParseState.start.run ending ts

/-- Reads a folded text. -/
def ofFolded (cs : List Char) : Except SyntaxError Expression := do
  ofTokens cs.length (← tokens cs)

end Expression

end Quadrature
