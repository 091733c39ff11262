import Quadrature.Json.Document
import Quadrature.Json.Lexer

/-!
# Reading documents

The reader takes one token at a time and keeps the containers still open on a
stack, so that nesting has no limit. `Document.stored?` is the form in which a
document is kept when its type is not yet known: its strings and numbers have been
read, of members with one key the last is kept, and nesting has a limit.
-/

namespace Quadrature

/-- A container that waits for its next value; what it already holds is in reverse
order. -/
inductive OpenContainer where
  | array (elements : List Document)
  | object (members : List (Option String × Document)) (key : Option String)

abbrev OpenContainers := List OpenContainer

/-- What may come next: a value; a value or the end of an empty array; a key, or the
end of an empty object; a key; a colon; what follows a complete value. -/
inductive DocumentState where
  | value (stack : OpenContainers)
  | element (stack : OpenContainers)
  | firstKey (stack : OpenContainers)
  | key (stack : OpenContainers) (members : List (Option String × Document))
  | colon (stack : OpenContainers) (members : List (Option String × Document))
      (key : Option String)
  | complete (stack : OpenContainers) (d : Document)

namespace DocumentState

def readValue (stack : OpenContainers) : JsonToken → Option DocumentState
  | .null => some (complete stack .null)
  | .bool b => some (complete stack (.bool b))
  | .number n => some (complete stack (.number n))
  | .string s => some (complete stack (.string s))
  | .openBracket => some (element stack)
  | .openBrace => some (firstKey stack)
  | _ => none

def readAfter (d : Document) : OpenContainers → JsonToken → Option DocumentState
  | .array es :: stack, .comma => some (value (.array (d :: es) :: stack))
  | .array es :: stack, .closeBracket => some (complete stack (.array (d :: es).reverse))
  | .object ms k :: stack, .comma => some (key stack ((k, d) :: ms))
  | .object ms k :: stack, .closeBrace => some (complete stack (.object ((k, d) :: ms).reverse))
  | _, _ => none

def step : DocumentState → JsonToken → Option DocumentState
  | value stack, t => readValue stack t
  | element stack, .closeBracket => some (complete stack (.array []))
  | element stack, t => readValue (.array [] :: stack) t
  | firstKey stack, .closeBrace => some (complete stack (.object []))
  | firstKey stack, .string k => some (colon stack [] k)
  | key stack ms, .string k => some (colon stack ms k)
  | colon stack ms k, .colon => some (value (.object ms k :: stack))
  | complete stack d, t => readAfter d stack t
  | _, _ => none

def run : DocumentState → List JsonToken → Option Document
  | complete [] d, [] => some d
  | _, [] => none
  | s, t :: ts => (s.step t).bind (run · ts)

end DocumentState

namespace Document

def ofTokens? (ts : List JsonToken) : Option Document :=
  (DocumentState.value []).run ts

def parse? (text : String) : Option Document := do
  ofTokens? (← JsonToken.ofChars? text.toList)

/-! ## Stored documents -/

/-- For each key its last member. -/
def lastMembers (ms : List (Option String × Document)) : List (Option String × Document) :=
  ms.foldr (fun m kept => if kept.any (·.1 == m.1) then kept else m :: kept) []

/-- The form in which a document of at most `depth` nested containers is kept. -/
def stored? : Nat → Document → Option Document
  | _, null => some null
  | _, bool b => some (bool b)
  | _, number n => if n.toFloat?.isSome then some (number n) else none
  | _, string s => s.map ofString
  | depth + 1, array es => (es.mapM (stored? depth)).map array
  | depth + 1, object ms =>
    (ms.mapM fun (m : Option String × Document) =>
      if m.1.isSome then (stored? depth m.2).map (m.1, ·) else none).map (object <| lastMembers ·)
  | 0, _ => none

/-- The greatest nesting of a stored document. -/
def maxDepth : Nat := 127

def parseStored? (text : String) : Option Document := do
  (← parse? text).stored? maxDepth

end Document

end Quadrature
