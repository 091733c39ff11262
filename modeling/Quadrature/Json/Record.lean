import Quadrature.Json.Document

/-!
# Reading records

A record is an object with named fields or the array of its fields in order. A
named field may be there once; members with other names mean nothing.
-/

namespace Quadrature

namespace Document

def toFloat? : Document → Option Float
  | number n => n.toFloat?
  | _ => none

/-- A natural number below `limit`. -/
def toNat? (limit : Nat) : Document → Option Nat
  | number n => n.toNat?.filter (· < limit)
  | _ => none

def toString? : Document → Option String
  | string s => s
  | _ => none

def toBool? : Document → Option Bool
  | bool b => some b
  | _ => none

def toList? {β : Type} (item : Document → Option β) : Document → Option (List β)
  | array es => es.mapM item
  | _ => none

/-- The inner option is `none` for null. -/
def toOption? {β : Type} (item : Document → Option β) : Document → Option (Option β)
  | null => some none
  | d => (item d).map some

end Document

/-- The fields found in a document. In the positional form a field may only be
absent if it has a default. -/
structure Record where
  positional : Bool
  fields : List (String × Document)

namespace Record

/-- Finds the fields of the given names. -/
def ofDocument? (names : List String) : Document → Option Record
  | .object ms => do
    let fields ← ms.mapM fun (k, d) => k.map (·, d)
    let known := fields.filter fun (k, _) => names.contains k
    if names.all fun name => (known.filter (·.1 == name)).length ≤ 1 then some ⟨false, known⟩
    else none
  | .array es => if es.length ≤ names.length then some ⟨true, names.zip es⟩ else none
  | _ => none

def field? (r : Record) (name : String) : Option Document :=
  (r.fields.find? (·.1 == name)).map (·.2)

variable {β : Type}

def required (r : Record) (name : String) (item : Document → Option β) : Option β := do
  item (← r.field? name)

/-- A field that may be null, and absent from an object. -/
def optional (r : Record) (name : String) (item : Document → Option β) : Option (Option β) :=
  match r.field? name with
  | some d => d.toOption? item
  | none => if r.positional then none else some none

def withDefault (r : Record) (name : String) (default : β) (item : Document → Option β) :
    Option β :=
  match r.field? name with
  | some d => item d
  | none => some default

end Record

end Quadrature
