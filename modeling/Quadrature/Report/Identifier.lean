import Quadrature.Text

/-!
# Identifiers

Numbers of 128 bits, written as 32 hexadecimal digits in five groups joined by
hyphens. The groups may be read in braces or behind a scheme, the bare digits also
without hyphens.
-/

namespace Quadrature

structure Identifier where
  bits : BitVec 128
  deriving DecidableEq

namespace Identifier

/-- Random bits, but for those that say that the rest is random. -/
def random (bits : BitVec 128) : Identifier :=
  ⟨bits &&& ~~~(0xF000C000000000000000#128) ||| 0x40008000000000000000#128⟩

def groups : List Nat := [8, 4, 4, 4, 12]

/-- Cuts the characters into groups of the given sizes, joined by hyphens. -/
def hyphenate : List Nat → List Char → List Char
  | [], _ => []
  | [size], cs => cs.take size
  | size :: sizes, cs => cs.take size ++ '-' :: hyphenate sizes (cs.drop size)

/-- The characters of the groups, if they have the given sizes. -/
def unhyphenate? : List Nat → List Char → Option (List Char)
  | [], _ => none
  | [size], cs => if cs.length = size then some cs else none
  | size :: sizes, cs =>
    match cs.drop size with
    | '-' :: rest => (unhyphenate? sizes rest).map (cs.take size ++ ·)
    | _ => none

def text (i : Identifier) : String :=
  String.ofList (hyphenate groups (Text.hexDigits 32 i.bits.toNat))

/-- What may stand before the groups, in letters of either case. -/
def scheme : List Char := ['u', 'r', 'n', ':', 'u', 'u', 'i', 'd', ':']

/-- What stands between braces or after the scheme. -/
def bare (cs : List Char) : List Char :=
  match cs with
  | '{' :: rest => if rest.getLast? = some '}' then rest.dropLast else cs
  | _ => if (cs.take scheme.length).map Char.toLower = scheme then cs.drop scheme.length else cs

def ofText? (text : String) : Option Identifier := do
  let cs := text.toList
  let digits ← if cs.length = 32 then some cs else unhyphenate? groups (bare cs)
  return ⟨BitVec.ofNat 128 (← Text.hexNumber? digits)⟩

end Identifier

end Quadrature
