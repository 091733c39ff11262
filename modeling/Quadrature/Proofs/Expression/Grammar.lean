import Mathlib
import Quadrature.Expression.Parser
import Quadrature.Expression.Printer

/-!
# The grammar of expressions

`Derives c ts t` says that the tokens `ts` spell the expression `t` as a
construct of category `c`:

    sum     := product (('+' | '-') product)*
    product := signed (('*' | '/') signed | power)*
    signed  := ('-' | '+') signed | power
    power   := primary ('^' signed)?
    primary := number | 'x' | 'e' | 'pi' | function '(' sum ')' | '(' sum ')'

The repetitions are rules that recur on the left, so sums and products group to
the left. A category holds every tighter one (`Derives.weaken`).
-/

namespace Quadrature

namespace NamedFunction

/-- The names under which a function is called. -/
def spellings : NamedFunction → List String
  | asin => ["asin", "arcsin"]
  | acos => ["acos", "arccos"]
  | atan => ["atan", "arctan"]
  | log10 => ["log", "log10"]
  | f => [f.name]

/-- The names under which the reciprocal of a function is called. -/
def reciprocalSpellings : NamedFunction → List String
  | sin => ["csc"]
  | cos => ["sec"]
  | tan => ["cot"]
  | _ => []

theorem name_mem_spellings (f : NamedFunction) : f.name ∈ f.spellings := by
  cases f <;> decide

end NamedFunction

def Operator.token : Operator → Token
  | add => .plus
  | sub => .minus
  | mul => .star
  | div => .slash
  | pow => .caret

inductive Category where
  | primary
  | power
  | signed
  | product
  | sum
  deriving DecidableEq

/-- The tighter a construct binds, the lower its rank. -/
def Category.rank : Category → Nat
  | primary => 0
  | power => 1
  | signed => 2
  | product => 3
  | sum => 4

open Token in
inductive Derives : Category → List Token → Expression → Prop where
  | number (v : Float) : Derives .primary [number v] (.number v)
  | var : Derives .primary [name "x"] .var
  | const (c : Constant) : Derives .primary [name c.name] (.const c)
  | call {s : String} {f : NamedFunction} {ts : List Token} {t : Expression} :
      s ∈ f.spellings → Derives .sum ts t →
      Derives .primary (name s :: openParen :: ts ++ [closeParen]) (.call f t)
  | reciprocal {s : String} {f : NamedFunction} {ts : List Token} {t : Expression} :
      s ∈ f.reciprocalSpellings → Derives .sum ts t →
      Derives .primary (name s :: openParen :: ts ++ [closeParen])
        (.binary .div (.number 1.0) (.call f t))
  | group {ts : List Token} {t : Expression} : Derives .sum ts t →
      Derives .primary (openParen :: ts ++ [closeParen]) t
  | bare {ts : List Token} {t : Expression} : Derives .primary ts t → Derives .power ts t
  | exponential {bs es : List Token} {t : Expression} :
      Derives .primary bs (.const .e) → Derives .signed es t →
      Derives .power (bs ++ caret :: es) (.call .exp t)
  | raised {bs es : List Token} {b t : Expression} :
      Derives .primary bs b → b ≠ .const .e → Derives .signed es t →
      Derives .power (bs ++ caret :: es) (.binary .pow b t)
  | unsigned {ts : List Token} {t : Expression} : Derives .power ts t → Derives .signed ts t
  | positive {ts : List Token} {t : Expression} : Derives .signed ts t →
      Derives .signed (plus :: ts) t
  | negative {ts : List Token} {t : Expression} : Derives .signed ts t →
      Derives .signed (minus :: ts) (.neg t)
  | factor {ts : List Token} {t : Expression} : Derives .signed ts t → Derives .product ts t
  | times {ls rs : List Token} {l r : Expression} : Derives .product ls l → Derives .signed rs r →
      Derives .product (ls ++ star :: rs) (.binary .mul l r)
  | divided {ls rs : List Token} {l r : Expression} : Derives .product ls l → Derives .signed rs r →
      Derives .product (ls ++ slash :: rs) (.binary .div l r)
  | juxtaposed {k : Token} {ls rs : List Token} {l r : Expression} : Derives .product ls l →
      k.startsOperand = true → Derives .power (k :: rs) r →
      Derives .product (ls ++ k :: rs) (.binary .mul l r)
  | term {ts : List Token} {t : Expression} : Derives .product ts t → Derives .sum ts t
  | add {ls rs : List Token} {l r : Expression} : Derives .sum ls l → Derives .product rs r →
      Derives .sum (ls ++ plus :: rs) (.binary .add l r)
  | sub {ls rs : List Token} {l r : Expression} : Derives .sum ls l → Derives .product rs r →
      Derives .sum (ls ++ minus :: rs) (.binary .sub l r)

namespace Derives

variable {c c' : Category} {ts bs es : List Token} {t b : Expression}

theorem weaken (h : Derives c ts t) (hc : c.rank ≤ c'.rank) : Derives c' ts t := by
  have power (h : Derives .power ts t) (hc : 1 ≤ c'.rank) : Derives c' ts t := by
    cases c' with
    | primary => simp [Category.rank] at hc
    | power => exact h
    | signed => exact h.unsigned
    | product => exact h.unsigned.factor
    | sum => exact h.unsigned.factor.term
  have signed (h : Derives .signed ts t) (hc : 2 ≤ c'.rank) : Derives c' ts t := by
    cases c' with
    | primary | power => simp [Category.rank] at hc
    | signed => exact h
    | product => exact h.factor
    | sum => exact h.factor.term
  cases c with
  | primary =>
    by_cases h0 : c' = .primary
    · exact h0 ▸ h
    · exact power h.bare (by cases c' <;> simp_all [Category.rank])
  | power => exact power h hc
  | signed => exact signed h hc
  | product =>
    cases c' with
    | primary | power | signed => simp [Category.rank] at hc
    | product => exact h
    | sum => exact h.term
  | sum =>
    cases c' with
    | primary | power | signed | product => simp [Category.rank] at hc
    | sum => exact h

theorem sum (h : Derives c ts t) : Derives .sum ts t :=
  h.weaken (by cases c <;> decide)

theorem additive {op : Operator} {ls rs : List Token} {l r : Expression} (ho : op.precedence = 1)
    (hl : Derives .sum ls l) (hr : Derives .product rs r) :
    Derives .sum (ls ++ op.token :: rs) (.binary op l r) := by
  cases op with
  | add => exact hl.add hr
  | sub => exact hl.sub hr
  | mul | div | pow => simp [Operator.precedence] at ho

theorem multiplicative {op : Operator} {ls rs : List Token} {l r : Expression}
    (ho : op.precedence = 2) (hl : Derives .product ls l) (hr : Derives .signed rs r) :
    Derives .product (ls ++ op.token :: rs) (.binary op l r) := by
  cases op with
  | mul => exact hl.times hr
  | div => exact hl.divided hr
  | add | sub | pow => simp [Operator.precedence] at ho

/-- Both ways to raise a base to a power at once. -/
theorem powerOf (hb : Derives .primary bs b) (he : Derives .signed es t) :
    Derives .power (bs ++ .caret :: es) (powerOf b t) := by
  unfold Quadrature.powerOf
  split
  · next h => exact exponential (h ▸ hb) he
  · next h => exact raised hb h he

/-- Only a number, a name or a parenthesis can begin a construct without a sign. -/
theorem startsOperand (h : Derives c ts t) (hc : c.rank ≤ 1) :
    ∃ k us, ts = k :: us ∧ k.startsOperand = true := by
  induction h with
  | number | var | const | call | reciprocal | group => exact ⟨_, _, rfl, rfl⟩
  | bare _ ih => exact ih (by decide)
  | exponential _ _ ih _ | raised _ _ _ ih _ =>
    obtain ⟨k, us, rfl, hk⟩ := ih (by decide)
    exact ⟨k, us ++ _, rfl, hk⟩
  | unsigned | positive | negative | factor | times | divided | juxtaposed | term | add | sub =>
    simp [Category.rank] at hc

end Derives

/-! ## What names stand for -/

namespace Meaning

theorem ofName?_eq_var {s : String} : ofName? s = some .var ↔ s = "x" := by
  constructor
  · intro h
    unfold ofName? at h
    split at h <;> simp_all
  · rintro rfl
    rfl

theorem ofName?_eq_const {s : String} {c : Constant} :
    ofName? s = some (.const c) ↔ s = c.name := by
  constructor
  · intro h
    unfold ofName? at h
    split at h <;> simp_all <;> subst h <;> rfl
  · rintro rfl
    cases c <;> rfl

theorem ofName?_eq_function {s : String} {f : NamedFunction} :
    ofName? s = some (.callee ⟨f, false⟩) ↔ s ∈ f.spellings := by
  constructor
  · intro h
    unfold ofName? at h
    split at h <;> simp at h <;> subst h <;> decide
  · revert s
    cases f <;> decide

theorem ofName?_eq_reciprocal {s : String} {f : NamedFunction} :
    ofName? s = some (.callee ⟨f, true⟩) ↔ s ∈ f.reciprocalSpellings := by
  constructor
  · intro h
    unfold ofName? at h
    split at h <;> simp at h <;> subst h <;> decide
  · revert s
    cases f <;> decide

end Meaning

/-- Both kinds of calls at once. -/
theorem Derives.callee {s : String} {f : Callee} {ts : List Token} {t : Expression}
    (hs : Meaning.ofName? s = some (.callee f)) (ht : Derives .sum ts t) :
    Derives .primary (.name s :: .openParen :: ts ++ [.closeParen]) (f.apply t) := by
  obtain ⟨f, r⟩ := f
  cases r with
  | false => exact .call (Meaning.ofName?_eq_function.1 hs) ht
  | true => exact .reciprocal (Meaning.ofName?_eq_reciprocal.1 hs) ht

end Quadrature
