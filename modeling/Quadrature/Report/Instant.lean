import Quadrature.Decimal.Basic
import Quadrature.Report.Date
import Quadrature.Text

/-!
# Instants

Points in time to the nanosecond, written as date and time of day in universal time.
They are read with any offset from it and with white space between the parts. A
leap second counts as the second before it with a billion nanoseconds more.
-/

namespace Quadrature

structure Instant where
  /-- Since the start of 1970, universal time. -/
  seconds : Int
  nanoseconds : Nat
  deriving DecidableEq

namespace Instant

def billion : Nat := 1000000000

/-! ## Writing -/

/-- A number with zeros in front up to `width` digits. -/
def padded (width n : Nat) : List Char :=
  List.replicate (width - (digitChars n).length) '0' ++ digitChars n

/-- Four digits, and a sign for years beyond them. -/
def yearText (year : Int) : List Char :=
  if year < 0 then '-' :: padded 4 year.natAbs
  else if 9999 < year then '+' :: padded 4 year.natAbs
  else padded 4 year.natAbs

def date (t : Instant) : Date :=
  .ofDays (t.seconds / 86400)

def secondOfDay (t : Instant) : Nat :=
  (t.seconds % 86400).toNat

def dateText (t : Instant) : List Char :=
  yearText t.date.year ++ '-' :: padded 2 t.date.month ++ '-' :: padded 2 t.date.day

def timeText (t : Instant) : List Char :=
  let s := t.secondOfDay
  padded 2 (s / 3600) ++ ':' :: padded 2 (s / 60 % 60) ++ ':' ::
    padded 2 (s % 60 + t.nanoseconds / billion)

/-- The fraction of the second: nothing, or three, six or nine digits. -/
def fractionText (t : Instant) : List Char :=
  let n := t.nanoseconds % billion
  if n = 0 then []
  else if n % 1000000 = 0 then '.' :: padded 3 (n / 1000000)
  else if n % 1000 = 0 then '.' :: padded 6 (n / 1000)
  else '.' :: padded 9 n

def text (t : Instant) : String :=
  String.ofList (t.dateText ++ 'T' :: t.timeText ++ t.fractionText ++ ['Z'])

/-- To the second, as a report shows it. -/
def headline (t : Instant) : String :=
  String.ofList (t.dateText ++ ' ' :: t.timeText ++ [' ', 'U', 'T', 'C'])

/-! ## Reading -/

/-- Takes what it reads from the head of a text. -/
abbrev Reader := StateT (List Char) Option

def blanks : Reader Unit :=
  modify (·.dropWhile Text.isBlank)

/-- The next character, if there is one that passes the test. -/
def next (test : Char → Bool) : Reader Char := do
  match ← get with
  | c :: cs => if test c then set cs; return c else failure
  | [] => failure

/-- The digits at the head, at most `most` and at least one. -/
def digits (most : Nat) : Reader (List Char) := do
  let cs ← get
  let ds := (cs.take most).takeWhile Char.isDigit
  if ds.isEmpty then failure
  set (cs.drop ds.length)
  return ds

def number (most : Nat) : Reader Nat := do
  blanks
  return digitsValue (← digits most)

def mark (c : Char) : Reader Unit := do
  blanks
  discard <| next (· == c)

/-- Up to four digits, or any number of them after a sign. -/
def year : Reader Int := do
  blanks
  match ← get with
  | '-' :: cs => set cs; return -(digitsValue (← digits cs.length) : Int)
  | '+' :: cs => set cs; return digitsValue (← digits cs.length)
  | _ => return digitsValue (← digits 4)

/-- The nanoseconds after a point; digits after the ninth mean nothing. -/
def fraction : Reader Nat := do
  match ← get with
  | '.' :: cs =>
    set cs
    let ds ← digits 9
    modify (·.dropWhile Char.isDigit)
    return digitsValue ds * Nat.pow 10 (9 - ds.length)
  | _ => return 0

def twoDigits : Reader Nat := do
  let c ← next Char.isDigit
  let d ← next Char.isDigit
  return digitsValue [c, d]

/-- Hours and minutes in seconds; colons and blanks may stand between. -/
def offsetSize : Reader Int := do
  let hours ← twoDigits
  modify (·.dropWhile fun c => c == ':' || Text.isBlank c)
  let minutes ← twoDigits
  if 59 < minutes then failure
  return hours * 3600 + minutes * 60

/-- How far the time that was given is ahead of universal time, in seconds. -/
def offset : Reader Int := do
  blanks
  match ← get with
  | 'Z' :: cs | 'z' :: cs => set cs; return 0
  | '+' :: cs => set cs; offsetSize
  | '-' :: cs | '\u2212' :: cs => set cs; return -(← offsetSize)
  | u :: t :: c :: cs =>
    if [u, t, c].map Char.toLower = ['u', 't', 'c'] then set cs; return 0 else failure
  | _ => failure

/-- The years in which instants are read. -/
def hasYear (d : Date) : Bool :=
  -262143 ≤ d.year ∧ d.year ≤ 262142

def reader : Reader Instant := do
  let year ← year
  mark '-'
  let month ← number 2
  mark '-'
  let date : Date := ⟨year, month, ← number 2⟩
  discard <| next fun c => c == 'T' || c == 't' || c == ' '
  let hour ← number 2
  mark ':'
  let minute ← number 2
  mark ':'
  let second ← number 2
  let fraction ← fraction
  let offset ← offset
  blanks
  unless date.isValid && hasYear date && hour < 24 && minute < 60 && second ≤ 60
    && offset.natAbs < 86400 do failure
  let leap := second / 60
  let t : Instant :=
    ⟨date.toDays * 86400 + (hour * 3600 + minute * 60 + (second - leap) : Nat) - offset,
      fraction + leap * billion⟩
  if hasYear t.date then return t else failure

def ofText? (text : String) : Option Instant := do
  match ← reader.run text.toList with
  | (t, []) => some t
  | _ => none

end Instant

end Quadrature
