import Quadrature.Json.Number
import Quadrature.Text

/-!
# Tokens of documents

A text is cut into punctuation marks, the three names, numbers and strings.
Blanks, tabs and line ends between them mean nothing.
-/

namespace Quadrature

inductive JsonToken where
  | openBrace
  | closeBrace
  | openBracket
  | closeBracket
  | colon
  | comma
  | null
  | bool (b : Bool)
  | number (n : JsonNumber)
  | string (s : Option String)
  deriving DecidableEq

namespace JsonToken

/-! ## Strings -/

/-- A character that stands for itself or behind a backslash, or a 16-bit unit
given by its number. -/
inductive Unit where
  | char (c : Char)
  | code (n : Nat)

/-- The character for which a letter behind a backslash stands. -/
def unescape? : Char → Option Char
  | '"' => some '"'
  | '\\' => some '\\'
  | '/' => some '/'
  | 'b' => some '\x08'
  | 'f' => some '\x0c'
  | 'n' => some '\n'
  | 'r' => some '\r'
  | 't' => some '\t'
  | _ => none

/-- The units up to the closing quote, and the text after it. A control character
does not stand for itself. -/
def units : List Char → Option (List Unit × List Char)
  | [] => none
  | '"' :: rest => some ([], rest)
  | '\\' :: 'u' :: a :: b :: c :: d :: rest =>
    match Text.hexNumber? [a, b, c, d], units rest with
    | some n, some (us, rest) => some (.code n :: us, rest)
    | _, _ => none
  | '\\' :: e :: rest =>
    match unescape? e, units rest with
    | some c, some (us, rest) => some (.char c :: us, rest)
    | _, _ => none
  | c :: rest =>
    match units rest with
    | some (us, rest) => if c.toNat < 0x20 then none else some (.char c :: us, rest)
    | none => none

/-- The characters of the units: the number of an upper half is followed by that of
a lower half, and no lower half stands alone. -/
def join : List Unit → Option (List Char)
  | [] => some []
  | .char c :: us => (join us).map (c :: ·)
  | .code n :: us =>
    if n < 0xD800 ∨ 0xDFFF < n then (join us).map (Char.ofNat n :: ·)
    else match us with
      | .code m :: us =>
        if n < 0xDC00 ∧ 0xDC00 ≤ m ∧ m ≤ 0xDFFF then
          (join us).map (Char.ofNat (0x10000 + (n - 0xD800) * 0x400 + (m - 0xDC00)) :: ·)
        else none
      | _ => none

/-! ## Numbers -/

/-- A point and its digits, of which there must be one. -/
def fractionPart? : List Char → Option (Option (List Char) × List Char)
  | '.' :: cs =>
    let ds := cs.takeWhile Char.isDigit
    if ds.isEmpty then none else some (some ds, cs.dropWhile Char.isDigit)
  | cs => some (none, cs)

/-- A power of ten, whose mark must have a digit behind it. -/
def powerPart? (cs : List Char) : Option (Option TenPower × List Char) :=
  match cs.head? with
  | some 'e' | some 'E' =>
    (TenPower.scan (fun _ => true) cs).map fun (power, rest) => (some power, rest)
  | _ => some (none, cs)

/-- An unsigned number. Its whole part has no needless zero in front. -/
def numeral? (cs : List Char) : Option (Numeral × List Char) :=
  let whole := cs.takeWhile Char.isDigit
  if whole.isEmpty || (whole.head? == some '0' && 1 < whole.length) then none
  else match fractionPart? (cs.dropWhile Char.isDigit) with
    | none => none
    | some (fraction, rest) =>
      (powerPart? rest).map fun (power, rest) => (⟨whole, fraction, power⟩, rest)

/-! ## Tokens -/

/-- Whether a character may stand between tokens. -/
def isBlank (c : Char) : Bool :=
  c == ' ' || c == '\n' || c == '\t' || c == '\r'

/-- The first token of the text `c :: cs`, whose first character is not blank, and
the text after it. -/
def first? (c : Char) (cs : List Char) : Option (JsonToken × List Char) :=
  match c with
  | '{' => some (openBrace, cs)
  | '}' => some (closeBrace, cs)
  | '[' => some (openBracket, cs)
  | ']' => some (closeBracket, cs)
  | ':' => some (colon, cs)
  | ',' => some (comma, cs)
  | 'n' => match cs with
    | 'u' :: 'l' :: 'l' :: rest => some (null, rest)
    | _ => none
  | 't' => match cs with
    | 'r' :: 'u' :: 'e' :: rest => some (bool true, rest)
    | _ => none
  | 'f' => match cs with
    | 'a' :: 'l' :: 's' :: 'e' :: rest => some (bool false, rest)
    | _ => none
  | '"' => (units cs).map fun (us, rest) => (string ((join us).map String.ofList), rest)
  | '-' => (numeral? cs).map fun (n, rest) => (number ⟨true, n⟩, rest)
  | c => (numeral? (c :: cs)).map fun (n, rest) => (number ⟨false, n⟩, rest)

/-! ## Texts -/

theorem length_units {cs rest : List Char} {us : List Unit} (h : units cs = some (us, rest)) :
    rest.length < cs.length := by
  fun_induction units cs generalizing us rest with
  | case1 | case4 | case6 | case7 | case9 => grind
  | case2 => simp_all
  | case3 | case5 | case8 =>
    rename_i hu _ ih
    have := ih hu
    simp only [Option.some.injEq, Prod.mk.injEq] at h
    simp only [List.length_cons, ← h.2]
    omega

theorem length_dropWhile (p : Char → Bool) (cs : List Char) :
    (cs.takeWhile p).length + (cs.dropWhile p).length = cs.length := by
  rw [← List.length_append, List.takeWhile_append_dropWhile]

theorem length_scan {isMark : Char → Bool} {cs rest : List Char} {p : TenPower}
    (h : TenPower.scan isMark cs = some (p, rest)) : rest.length < cs.length := by
  cases cs with
  | nil => simp [TenPower.scan] at h
  | cons m cs =>
    have hs : (TenPower.takeSign cs).2.length ≤ cs.length := by
      unfold TenPower.takeSign; split <;> simp
    have := length_dropWhile Char.isDigit (TenPower.takeSign cs).2
    simp only [TenPower.scan] at h
    split at h
    · simp only [Option.some.injEq, Prod.mk.injEq] at h
      simp only [List.length_cons, ← h.2]
      omega
    · cases h

theorem length_fractionPart {cs rest : List Char} {f : Option (List Char)}
    (h : fractionPart? cs = some (f, rest)) : rest.length ≤ cs.length := by
  unfold fractionPart? at h
  split at h
  · rename_i tail
    have := length_dropWhile Char.isDigit tail
    grind
  · grind

theorem length_powerPart {cs rest : List Char} {p : Option TenPower}
    (h : powerPart? cs = some (p, rest)) : rest.length ≤ cs.length := by
  unfold powerPart? at h
  split at h
  case h_3 => grind
  all_goals
    obtain ⟨⟨q, r⟩, hq, he⟩ := Option.map_eq_some_iff.mp h
    have := length_scan hq
    grind

theorem length_numeral {cs rest : List Char} {n : Numeral} (h : numeral? cs = some (n, rest)) :
    rest.length < cs.length := by
  have hw := length_dropWhile Char.isDigit cs
  simp only [numeral?] at h
  split at h
  · cases h
  · rename_i hd
    have : 0 < (cs.takeWhile Char.isDigit).length := by
      rw [List.length_pos_iff]; intro he; simp [he] at hd
    split at h
    · cases h
    · rename_i f tail hf
      obtain ⟨⟨q, r⟩, hq, he⟩ := Option.map_eq_some_iff.mp h
      have := length_fractionPart hf
      have := length_powerPart hq
      simp only [Prod.mk.injEq] at he
      rw [← he.2]
      omega

theorem length_first {c : Char} {cs rest : List Char} {t : JsonToken}
    (h : first? c cs = some (t, rest)) : rest.length ≤ cs.length := by
  unfold first? at h
  split at h
  case h_10 =>
    obtain ⟨⟨us, r⟩, hu, he⟩ := Option.map_eq_some_iff.mp h
    have := length_units hu
    grind
  case h_11 =>
    obtain ⟨⟨n, r⟩, hn, he⟩ := Option.map_eq_some_iff.mp h
    have := length_numeral hn
    grind
  case h_12 =>
    obtain ⟨⟨n, r⟩, hn, he⟩ := Option.map_eq_some_iff.mp h
    have := length_numeral hn
    grind
  all_goals grind

/-- The tokens of a text. -/
def ofChars? : List Char → Option (List JsonToken)
  | [] => some []
  | c :: cs =>
    if isBlank c then ofChars? cs
    else match _h : first? c cs with
      | none => none
      | some (t, rest) => (ofChars? rest).map (t :: ·)
termination_by cs => cs.length
decreasing_by
  · simp
  · have := length_first _h
    simp only [List.length_cons]
    omega

end JsonToken

end Quadrature
