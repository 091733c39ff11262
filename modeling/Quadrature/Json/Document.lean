import Quadrature.Json.Number

/-!
# Documents

JSON documents as they are written: numbers as literals, members in their order
and with repetitions. A string is `none` if an escape in it names half of a
surrogate pair alone; such a string may be skipped but never read.
-/

namespace Quadrature

inductive Document where
  | null
  | bool (b : Bool)
  | number (n : JsonNumber)
  | string (s : Option String)
  | array (elements : List Document)
  | object (members : List (Option String × Document))

namespace Document

def ofString (s : String) : Document :=
  string (some s)

def ofNat (n : Nat) : Document :=
  number (.ofNat n)

/-- NaN and the infinities have no number and become null. -/
def ofFloat (x : Float) : Document :=
  if x.isFinite then number (.ofFloat x) else null

def ofOption {β : Type} (item : β → Document) : Option β → Document
  | some x => item x
  | none => null

def ofList {β : Type} (item : β → Document) (xs : List β) : Document :=
  array (xs.map item)

/-- The record with the given members. -/
def ofMembers (members : List (String × Document)) : Document :=
  object (members.map fun (k, v) => (some k, v))

end Document

end Quadrature
