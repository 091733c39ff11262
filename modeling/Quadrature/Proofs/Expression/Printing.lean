import Quadrature.Proofs.Decimal.Layout
import Quadrature.Proofs.Expression.Grammar
import Quadrature.Proofs.Expression.Lexing

/-!
# Printed expressions as tokens

`Expression.printed` is the text of an expression as tokens. The text of an expression
with finite numbers is cut into exactly these tokens wherever it is printed
(`Expression.spells`): after it the text ends, a parenthesis closes or an operator
follows, so no lexeme at its end grows, and no operand begins with a star that the
operator before it could take for its own.
-/

namespace Quadrature

/-- Longest lexemes spell `ts` from the beginning of `cs` up to `rest`. -/
inductive Lexes : List Char → List Token → List Char → Prop where
  | nil (cs : List Char) : Lexes cs [] cs
  | cons {cs l mid rest : List Char} {t : Token} {ts : List Token} : Longest cs l mid t →
      t.IsFinite → Lexes mid ts rest → Lexes cs (t :: ts) rest

namespace Lexes

variable {cs mid rest : List Char} {ts us : List Token} {t : Token}

theorem append (h : Lexes cs ts mid) (h' : Lexes mid us rest) : Lexes cs (ts ++ us) rest := by
  induction h with
  | nil => exact h'
  | cons hL ht _ ih => exact .cons hL ht (ih h')

theorem single {l : List Char} (h : Longest cs l rest t) (ht : t.IsFinite) : Lexes cs [t] rest :=
  .cons h ht (.nil rest)

theorem tokensFrom (h : Lexes cs us []) (p : Nat) :
    ∃ ts, Quadrature.tokensFrom p cs = .ok ts ∧ ts.map PlacedToken.token = us := by
  generalize hrest : ([] : List Char) = rest at h
  induction h generalizing p with
  | nil cs =>
    subst hrest
    exact ⟨[], by rw [Quadrature.tokensFrom], rfl⟩
  | @cons cs l mid rest t us hL ht _ ih =>
    obtain ⟨ts, htok, hmap⟩ := ih (p + l.length) hrest
    refine ⟨⟨t, p⟩ :: ts, ?_, by rw [List.map_cons, hmap]⟩
    rw [tokensFrom_longest hL ht, htok]
    rfl

end Lexes

/-! ## Boundaries between lexemes -/

/-- What can follow a printed operand. -/
def Delimits (rest : List Char) : Prop :=
  ∀ c, rest.head? = some c → c ∈ ['+', '-', '*', '/', '^', ')']

theorem Delimits.nil : Delimits [] := by
  intro c hc
  cases hc

theorem Delimits.cons {c : Char} (h : c ∈ ['+', '-', '*', '/', '^', ')']) (cs : List Char) :
    Delimits (c :: cs) := by
  intro d hd
  cases hd
  exact h

theorem Delimits.ends {rest : List Char} (h : Delimits rest) :
    Numeral.Ends (· == 'e') rest := by
  intro c hc
  have hmem := h c hc
  simp only [List.mem_cons, List.not_mem_nil, or_false] at hmem
  rcases hmem with rfl | rfl | rfl | rfl | rfl | rfl <;> decide

/-- What ends a run of letters without making it longer. -/
def EndsWord (rest : List Char) : Prop :=
  ∀ c, rest.head? = some c → c.isLower = false ∧ c ≠ '1'

theorem Delimits.endsWord {rest : List Char} (h : Delimits rest) : EndsWord rest := by
  intro c hc
  have hmem := h c hc
  simp only [List.mem_cons, List.not_mem_nil, or_false] at hmem
  rcases hmem with rfl | rfl | rfl | rfl | rfl | rfl <;> decide

theorem EndsWord.openParen (cs : List Char) : EndsWord ('(' :: cs) := by
  intro c hc
  cases hc
  decide

namespace Longest

variable {l rest : List Char}

theorem plain {n : Numeral} (hn : IsPlain n) (hr : Delimits rest) :
    Longest (n.text ++ rest) n.text rest (.number n.value.toFloat) := by
  have hlit := hn.isLiteral (· == 'e')
  have hscan := Numeral.scan_text Numeral.marks_e hlit hr.ends
  obtain ⟨c, cs, ht, hc⟩ := hlit.head
  rw [ht, List.cons_append] at hscan ⊢
  rw [← ht]
  exact literal hc hscan

theorem word (hne : l ≠ []) (hl : ∀ c ∈ l, c.isLower = true) (hr : EndsWord rest) :
    Longest (l ++ rest) l rest (.name (String.ofList l)) := by
  obtain ⟨c, cs, rfl⟩ := List.exists_cons_of_ne_nil hne
  have hstop : rest.takeWhile Char.isLower = [] ∧ rest.dropWhile Char.isLower = rest := by
    cases rest with
    | nil => exact ⟨rfl, rfl⟩
    | cons d ds => simp [(hr d rfl).1]
  have htake : (c :: cs ++ rest).takeWhile Char.isLower = c :: cs := by
    rw [List.takeWhile_append_of_pos hl, hstop.1, List.append_nil]
  have hdrop : (c :: cs ++ rest).dropWhile Char.isLower = rest := by
    rw [List.dropWhile_append_of_pos hl, hstop.2]
  rcases @letters (cs ++ rest) c (hl c List.mem_cons_self) with hL | ⟨r, hlog⟩
  · rw [← List.cons_append, htake, hdrop] at hL
    exact hL
  · -- the digits of `log10(` would have to follow the letters
    rw [← List.cons_append] at hlog
    rw [hlog] at hdrop
    have hone := (hr '1' (by rw [← hdrop]; rfl)).2
    exact absurd rfl hone

end Longest

/-! ## Places for operands -/

namespace Operator

/-- The category of the constructs that an operator makes. -/
def category : Operator → Category
  | add | sub => .sum
  | mul | div => .product
  | pow => .power

/-- The category of what is printed to its left without parentheses. -/
def left : Operator → Category
  | add | sub => .sum
  | mul | div => .product
  | pow => .primary

/-- The category of what is printed to its right without parentheses. A sign in an exponent
is printed in parentheses although it would be read without them. -/
def right : Operator → Category
  | add | sub => .product
  | mul | div => .signed
  | pow => .power

/-- The category of what is read to its right without parentheses. -/
def rightRead : Operator → Category
  | pow => .signed
  | op => op.right

theorem right_le_rightRead (op : Operator) : op.right.rank ≤ op.rightRead.rank := by
  cases op <;> decide

end Operator

namespace Expression

/-- The tightest category of an expression that is printed without parentheses. -/
def category : Expression → Category
  | binary op _ _ => op.category
  | neg _ => .signed
  | _ => .primary

def fits (t : Expression) (c : Category) : Bool :=
  t.category.rank ≤ c.rank

theorem precedence_add_rank (t : Expression) : t.precedence + t.category.rank = 5 := by
  cases t with
  | binary op => cases op <;> rfl
  | _ => rfl

/-- How a printer that compares precedences finds that an operand does not fit. -/
theorem decide_eq_not_fits {p : Prop} [Decidable p] (t : Expression) (c : Category)
    (h : p ↔ t.precedence + c.rank < 5) : decide p = !t.fits c := by
  have hrank := t.precedence_add_rank
  rw [fits, ← decide_not, decide_eq_decide, h]
  omega

/-- An operand of a sign is in parentheses exactly when it does not fit. -/
theorem text_neg (t : Expression) :
    (neg t).text = "-" ++ parenthesized t.text (!t.fits .signed) := by
  rw [text, decide_eq_not_fits t .signed (by simp only [Category.rank]; omega)]

/-- An operand is in parentheses exactly when it does not fit its place. -/
theorem text_binary (op : Operator) (l r : Expression) :
    (binary op l r).text =
      parenthesized l.text (!l.fits op.left) ++ op.symbol ++
        parenthesized r.text (!r.fits op.right) := by
  by_cases hop : op = .pow
  · subst hop
    have hl : l.precedence ≤ 4 ↔ l.precedence + Category.rank .primary < 5 := by
      simp only [Category.rank]
      omega
    have hr : r.precedence < 4 ↔ r.precedence + Category.rank .power < 5 := by
      simp only [Category.rank]
      omega
    rw [text, decide_eq_not_fits l .primary hl, decide_eq_not_fits r .power hr]
    rfl
  · have hl : l.precedence < op.precedence ↔ l.precedence + op.left.rank < 5 := by
      cases op <;> simp only [Operator.precedence, Operator.left, Category.rank] <;>
        first | omega | exact absurd rfl hop
    have hr : r.precedence ≤ op.precedence ↔ r.precedence + op.right.rank < 5 := by
      cases op <;> simp only [Operator.precedence, Operator.right, Category.rank] <;>
        first | omega | exact absurd rfl hop
    rw [text, decide_eq_not_fits l op.left hl, decide_eq_not_fits r op.right hr]
    exact hop

end Expression

/-! ## Tokens of a printed expression -/

def Token.parenthesized (ts : List Token) (parens : Bool) : List Token :=
  if parens then .openParen :: ts ++ [.closeParen] else ts

namespace Expression

/-- The tokens of the text of an expression. A minus sign of a number is a token of its
own. -/
def printed : Expression → List Token
  | number v => if isNegative v then [.minus, .number v.abs] else [.number v.abs]
  | var => [.name "x"]
  | const c => [.name c.name]
  | neg t => .minus :: Token.parenthesized t.printed (!t.fits .signed)
  | call f t => .name f.name :: .openParen :: t.printed ++ [.closeParen]
  | binary op l r =>
    Token.parenthesized l.printed (!l.fits op.left) ++ op.token ::
      Token.parenthesized r.printed (!r.fits op.right)

/-- The numbers in the expression are finite. -/
def Finite : Expression → Prop
  | number v => v.isFinite = true
  | var | const _ => True
  | neg t | call _ t => t.Finite
  | binary _ l r => l.Finite ∧ r.Finite

end Expression

/-- A text is cut into the tokens `ts` wherever it is printed. -/
def Spells (text : String) (ts : List Token) : Prop :=
  ∀ rest, Delimits rest → Lexes (text.toList ++ rest) ts rest

/-- Tokens with which an operand begins: no star and no caret. -/
def BeginsOperand (ts : List Token) : Prop :=
  ∃ k us, ts = k :: us ∧ (k.startsOperand = true ∨ k = .minus)

namespace BeginsOperand

variable {ts : List Token}

theorem append (h : BeginsOperand ts) (us : List Token) : BeginsOperand (ts ++ us) := by
  obtain ⟨k, vs, rfl, hk⟩ := h
  exact ⟨k, vs ++ us, rfl, hk⟩

theorem parenthesized (h : BeginsOperand ts) (b : Bool) :
    BeginsOperand (Token.parenthesized ts b) := by
  cases b with
  | false => exact h
  | true => exact ⟨_, _, rfl, .inl rfl⟩

theorem head?_ne_star {cs rest : List Char} (h : BeginsOperand ts) (hL : Lexes cs ts rest) :
    cs.head? ≠ some '*' := by
  obtain ⟨k, us, rfl, hk⟩ := h
  cases hL with
  | cons hL _ _ =>
    intro hstar
    obtain ⟨c, l, rfl, -⟩ := hL.lexeme.begins
    obtain rfl : c = '*' := by
      rw [hL.split] at hstar
      cases hstar
      rfl
    have hsym := hL.lexeme.symbol rfl (by decide) (by decide) (by decide)
    simp [symbols] at hsym
    rcases hsym with ⟨-, rfl⟩ | ⟨-, rfl⟩ <;> rcases hk with hk | hk <;> cases hk

end BeginsOperand

theorem Expression.printed_begins (t : Expression) : BeginsOperand t.printed := by
  induction t with
  | number v =>
    unfold printed
    split
    · exact ⟨_, _, rfl, .inr rfl⟩
    · exact ⟨_, _, rfl, .inl rfl⟩
  | var | const => exact ⟨_, _, rfl, .inl rfl⟩
  | neg => exact ⟨_, _, rfl, .inr rfl⟩
  | call => exact ⟨_, _, rfl, .inl rfl⟩
  | binary op l r ihl _ => exact (ihl.parenthesized _).append _

namespace Spells

variable {text l r : String} {ts ls rs : List Token}

theorem parenthesized (h : Spells text ts) (b : Bool) :
    Spells (Expression.parenthesized text b) (Token.parenthesized ts b) := by
  cases b with
  | false => exact h
  | true =>
    intro rest hrest
    have hopen : Longest ('(' :: (text.toList ++ ')' :: rest)) ['('] (text.toList ++ ')' :: rest)
        .openParen := .symbol (by decide) (.openParen _)
    have hclose : Longest (')' :: rest) [')'] rest .closeParen :=
      .symbol (by decide) (.closeParen _)
    have htext := h (')' :: rest) (.cons (by decide) rest)
    have hlist : (Expression.parenthesized text true).toList ++ rest =
        '(' :: (text.toList ++ ')' :: rest) := by
      simp [Expression.parenthesized]
    rw [hlist]
    exact .cons hopen trivial (htext.append (.single hclose trivial))

theorem minus (h : Spells text ts) : Spells ("-" ++ text) (.minus :: ts) := by
  intro rest hrest
  have hminus : Longest ('-' :: (text.toList ++ rest)) ['-'] (text.toList ++ rest) .minus :=
    .symbol (by decide) (.minus _)
  have hlist : ("-" ++ text).toList ++ rest = '-' :: (text.toList ++ rest) := by simp
  rw [hlist]
  exact .cons hminus trivial (h rest hrest)

/-- Whatever follows an operator is read on its own. -/
theorem operator (op : Operator) (hr : Spells r rs) (hb : BeginsOperand rs) {rest : List Char}
    (hrest : Delimits rest) :
    Lexes (op.symbol.toList ++ (r.toList ++ rest)) (op.token :: rs) rest := by
  have hL := hr rest hrest
  cases op with
  | add => exact .cons (.symbol (by decide) (.plus _)) trivial hL
  | sub => exact .cons (.symbol (by decide) (.minus _)) trivial hL
  | mul => exact .cons (.star (hb.head?_ne_star hL)) trivial hL
  | div => exact .cons (.symbol (by decide) (.slash _)) trivial hL
  | pow => exact .cons (.symbol (by decide) (.caret _)) trivial hL

theorem binary (op : Operator) (hl : Spells l ls) (hr : Spells r rs) (hb : BeginsOperand rs) :
    Spells (l ++ op.symbol ++ r) (ls ++ op.token :: rs) := by
  intro rest hrest
  have hdelim : Delimits (op.symbol.toList ++ (r.toList ++ rest)) := by
    cases op <;> exact .cons (by decide) _
  have hlist : (l ++ op.symbol ++ r).toList ++ rest =
      l.toList ++ (op.symbol.toList ++ (r.toList ++ rest)) := by
    simp
  rw [hlist]
  exact (hl _ hdelim).append (hr.operator op hb hrest)

theorem word {s : String} (hne : s.toList ≠ []) (hs : s.toList.all Char.isLower = true) :
    Spells s [.name s] := by
  intro rest hrest
  have hL := Longest.word hne (List.all_eq_true.1 hs) hrest.endsWord
  rw [String.ofList_toList] at hL
  exact .single hL trivial

end Spells

/-- The name of a function before its argument. -/
theorem longest_name (f : NamedFunction) (cs : List Char) :
    Longest (f.name.toList ++ '(' :: cs) f.name.toList ('(' :: cs) (.name f.name) := by
  by_cases hf : f = .log10
  · subst hf
    exact .log10 cs
  · have hword : f.name.toList ≠ [] ∧ f.name.toList.all Char.isLower = true := by
      cases f <;> first | exact absurd rfl hf | decide
    have hL := Longest.word hword.1 (List.all_eq_true.1 hword.2) (.openParen cs)
    rw [String.ofList_toList] at hL
    exact hL

theorem Spells.call (f : NamedFunction) {text : String} {ts : List Token} (h : Spells text ts) :
    Spells (f.name ++ "(" ++ text ++ ")") (.name f.name :: .openParen :: ts ++ [.closeParen]) := by
  intro rest hrest
  have hparens := h.parenthesized true rest hrest
  have hlist : (f.name ++ "(" ++ text ++ ")").toList ++ rest =
      f.name.toList ++ '(' :: (text.toList ++ ')' :: rest) := by
    simp
  have hlist' : (Expression.parenthesized text true).toList ++ rest =
      '(' :: (text.toList ++ ')' :: rest) := by
    simp [Expression.parenthesized]
  rw [hlist]
  rw [hlist'] at hparens
  exact .cons (longest_name f _) trivial hparens

/-- The text of a finite number is a literal, after a minus sign if it has one. -/
theorem spells_number {v : Float} (hv : v.isFinite = true) :
    Spells (plainText v) (Expression.number v).printed := by
  obtain ⟨n, hn, htext, hvalue⟩ := plainText_spells hv
  have habs : Token.IsFinite (.number n.value.toFloat) := by
    rw [hvalue]
    exact isFinite_abs hv
  have hnum (rest : List Char) (hrest : Delimits rest) :
      Lexes (n.text ++ rest) [.number v.abs] rest := by
    rw [← hvalue]
    exact .single (.plain hn hrest) habs
  intro rest hrest
  rw [htext, Expression.printed, signText]
  split
  · have hminus : Longest ('-' :: (n.text ++ rest)) ['-'] (n.text ++ rest) .minus :=
      .symbol (by decide) (.minus _)
    exact .cons hminus trivial (hnum rest hrest)
  · exact hnum rest hrest

/-- A printed expression is cut into its tokens. -/
theorem Expression.spells {t : Expression} (h : t.Finite) : Spells t.text t.printed := by
  induction t with
  | number v => exact spells_number h
  | var => exact .word (by decide) (by decide)
  | const c => cases c <;> exact .word (by decide) (by decide)
  | neg t ih =>
    rw [text_neg]
    exact ((ih h).parenthesized _).minus
  | call f t ih => exact .call f (ih h)
  | binary op l r ihl ihr =>
    have hl := (ihl h.1).parenthesized (!l.fits op.left)
    have hr := (ihr h.2).parenthesized (!r.fits op.right)
    rw [text_binary]
    exact .binary op hl hr (r.printed_begins.parenthesized _)

end Quadrature
