import Quadrature.Decimal.Basic

/-!
# Numerals

Decimal literals: digits with at most one point and at least one digit, then an
optional power of ten. `Numeral.scan` takes the longest literal at the head of a
text; `readFloat` reads a whole text with a sign and the names of infinity and
NaN.
-/

namespace Quadrature

/-- The power of ten of a literal as it is written. -/
structure TenPower where
  mark : Char
  sign : Option Char
  digits : List Char
  deriving DecidableEq

namespace TenPower

def text (p : TenPower) : List Char :=
  p.mark :: p.sign.toList ++ p.digits

def value (p : TenPower) : Int :=
  if p.sign = some '-' then -(digitsValue p.digits : Int) else digitsValue p.digits

def takeSign : List Char → Option Char × List Char
  | '+' :: rest => (some '+', rest)
  | '-' :: rest => (some '-', rest)
  | cs => (none, cs)

/-- A mark counts only when a digit follows it, with or without a sign between. -/
def scan (isMark : Char → Bool) : List Char → Option (TenPower × List Char)
  | [] => none
  | m :: cs =>
    let (sign, cs) := takeSign cs
    let digits := cs.takeWhile Char.isDigit
    if isMark m && !digits.isEmpty then some (⟨m, sign, digits⟩, cs.dropWhile Char.isDigit) else none

end TenPower

/-- An unsigned literal as it is written; `fraction` is `none` without a point. -/
structure Numeral where
  whole : List Char
  fraction : Option (List Char)
  power : Option TenPower
  deriving DecidableEq

namespace Numeral

def text (n : Numeral) : List Char :=
  n.whole ++ (n.fraction.elim [] ('.' :: ·)) ++ (n.power.elim [] TenPower.text)

def value (n : Numeral) : Decimal :=
  let fraction := n.fraction.getD []
  ⟨digitsValue (n.whole ++ fraction), n.power.elim 0 TenPower.value - fraction.length⟩

/-- A point with the digits after it. -/
def takeFraction : List Char → Option (List Char) × List Char
  | '.' :: cs => (some (cs.takeWhile Char.isDigit), cs.dropWhile Char.isDigit)
  | cs => (none, cs)

def scan (isMark : Char → Bool) (cs : List Char) : Option (Numeral × List Char) :=
  let whole := cs.takeWhile Char.isDigit
  let (fraction, rest) := takeFraction (cs.dropWhile Char.isDigit)
  if whole.isEmpty && (fraction.getD []).isEmpty then none
  else match TenPower.scan isMark rest with
    | some (power, rest) => some (⟨whole, fraction, some power⟩, rest)
    | none => some (⟨whole, fraction, none⟩, rest)

end Numeral

/-- Splits off a leading sign; `true` stands for minus. -/
def takeSign : List Char → Bool × List Char
  | '-' :: cs => (true, cs)
  | '+' :: cs => (false, cs)
  | cs => (false, cs)

def readMagnitude (cs : List Char) : Option Float :=
  match String.ofList (cs.map Char.toLower) with
  | "inf" | "infinity" => some infinity
  | "nan" => some notANumber
  | _ => match Numeral.scan (fun c => c == 'e' || c == 'E') cs with
    | some (n, []) => some n.value.toFloat
    | _ => none

/-- A double written as a whole text, correctly rounded. -/
def readFloat (text : String) : Option Float :=
  let (negative, cs) := takeSign text.toList
  (readMagnitude cs).map fun x => if negative then -x else x

/-- A natural number below `limit` written as a whole text; a plus sign may lead. -/
def readNat (limit : Nat) (text : String) : Option Nat :=
  let ds := match text.toList with
    | '+' :: cs => cs
    | cs => cs
  if !ds.isEmpty && ds.all Char.isDigit && digitsValue ds < limit then some (digitsValue ds) else none

end Quadrature
