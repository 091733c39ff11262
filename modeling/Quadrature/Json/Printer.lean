import Quadrature.Json.Document
import Quadrature.Text

/-!
# Writing documents

A document is written compactly, or with each element and member on a line of its
own, indented by two blanks for each container around it. Both forms are one
function of the indentation, which is absent in the compact form.
-/

namespace Quadrature

namespace Document

/-! ## Strings -/

/-- Quotes, backslashes and control characters are escaped. -/
def escape (c : Char) : List Char :=
  match c with
  | '"' => ['\\', '"']
  | '\\' => ['\\', '\\']
  | '\x08' => ['\\', 'b']
  | '\x0c' => ['\\', 'f']
  | '\n' => ['\\', 'n']
  | '\r' => ['\\', 'r']
  | '\t' => ['\\', 't']
  | c =>
    if c.toNat < 0x20 then '\\' :: 'u' :: Text.hexDigits 4 c.toNat else [c]

/-- A string without a value is written as half of a surrogate pair. -/
def quoted : Option String → List Char
  | some s => '"' :: s.toList.flatMap escape ++ ['"']
  | none => ['"', '\\', 'u', 'd', '8', '0', '0', '"']

/-! ## Documents -/

/-- How many containers surround a document, when it is indented. -/
abbrev Indentation := Option Nat

def newLine : Indentation → List Char
  | none => []
  | some depth => '\n' :: List.replicate (2 * depth) ' '

def colon : Indentation → List Char
  | none => [':']
  | some _ => [':', ' ']

mutual

def write (i : Indentation) : Document → List Char
  | null => ['n', 'u', 'l', 'l']
  | bool true => ['t', 'r', 'u', 'e']
  | bool false => ['f', 'a', 'l', 's', 'e']
  | number n => n.text
  | string s => quoted s
  | array [] => ['[', ']']
  | array (e :: es) =>
    let j := i.map (· + 1)
    '[' :: newLine j ++ write j e ++ writeElements j es ++ newLine i ++ [']']
  | object [] => ['{', '}']
  | object ((k, d) :: ms) =>
    let j := i.map (· + 1)
    '{' :: newLine j ++ quoted k ++ colon j ++ write j d ++ writeMembers j ms ++ newLine i ++ ['}']

/-- The elements after the first. -/
def writeElements (i : Indentation) : List Document → List Char
  | [] => []
  | e :: es => ',' :: newLine i ++ write i e ++ writeElements i es

/-- The members after the first. -/
def writeMembers (i : Indentation) : List (Option String × Document) → List Char
  | [] => []
  | (k, d) :: ms => ',' :: newLine i ++ quoted k ++ colon i ++ write i d ++ writeMembers i ms

end

def indented (d : Document) : String :=
  String.ofList (d.write (some 0))

end Document

end Quadrature
