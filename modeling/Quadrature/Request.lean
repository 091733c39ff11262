import Quadrature.Analysis.Record
import Quadrature.Text

/-!
# Requests

What is to be integrated, over which interval, by which rules. A request names no
rule twice.
-/

namespace Quadrature

/-- An expression as it was typed, or the name of a catalogue entry. -/
inductive FunctionSource where
  | expression (text : String)
  | predefined (name : String)
  deriving DecidableEq

namespace FunctionSource

/-- An at sign marks a name; any other text is an expression as it stands. -/
def ofText (text : String) : FunctionSource :=
  match Text.trim text.toList with
  | '@' :: name => predefined (String.ofList (Text.trim name))
  | _ => expression text

def toDocument : FunctionSource → Document
  | expression text => .ofMembers [("expression", .ofString text)]
  | predefined name => .ofMembers [("predefined", .ofString name)]

/-- An object with one member, whose key says which source its text is. -/
def ofDocument? : Document → Option FunctionSource
  | .object [(some "expression", d)] => d.toString?.map expression
  | .object [(some "predefined", d)] => d.toString?.map predefined
  | _ => none

end FunctionSource

/-! ## Rules without repetitions -/

namespace Rule

/-- The rules of a list, each where it first occurs. -/
def distinct : List Rule → List Rule
  | [] => []
  | r :: rs => r :: (distinct rs).filter (· ≠ r)

theorem nodup_distinct (rs : List Rule) : (distinct rs).Nodup := by
  induction rs with
  | nil => simp [distinct]
  | cons r rs ih => exact List.nodup_cons.2 ⟨by simp, List.Pairwise.filter _ ih⟩

end Rule

/-! ## Requests -/

structure Request where
  function : FunctionSource
  (a b : Float)
  n : Nat
  rules : List Rule
  /-- Whether the rules are also compared over a range of counts. -/
  convergence : Bool
  nodup_rules : rules.Nodup

namespace Request

/-- A request for the rules of a list, each once. -/
def ofRules (function : FunctionSource) (a b : Float) (n : Nat) (rules : List Rule)
    (convergence : Bool) : Request :=
  ⟨function, a, b, n, Rule.distinct rules, convergence, Rule.nodup_distinct rules⟩

/-- What does not depend on the rules; each of them has its own least count. -/
def validate (r : Request) : Except (ParameterError Float) Unit := do
  checkBounds r.a r.b
  if r.n = 0 then throw .zeroPanels
  if r.rules = [] then throw .noRules

def toDocument (r : Request) : Document :=
  .ofMembers [
    ("function", r.function.toDocument),
    ("a", .ofFloat r.a),
    ("b", .ofFloat r.b),
    ("n", .ofNat r.n),
    ("rules", .ofList Rule.toDocument r.rules),
    ("convergence", .bool r.convergence)]

def ofDocument? (d : Document) : Option Request := do
  let r ← Record.ofDocument? ["function", "a", "b", "n", "rules", "convergence"] d
  return ofRules
    (← r.required "function" FunctionSource.ofDocument?)
    (← r.required "a" Document.toFloat?)
    (← r.required "b" Document.toFloat?)
    (← r.required "n" (Document.toNat? UInt64.size))
    (← r.required "rules" (Document.toList? Rule.ofDocument?))
    (← r.withDefault "convergence" false Document.toBool?)

end Request

end Quadrature
