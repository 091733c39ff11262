import Quadrature.Proofs.Expression.Nesting
import Quadrature.Proofs.Expression.RoundTrip

/-!
# Layouts

A layout is an expression with parentheses around some of its parts. Its text is read back as the
expression exactly when every operand without parentheses fits its place (`Layout.ofFolded_iff`):
whatever else a text with an operand in the wrong place means, it is not that expression.
-/

namespace Quadrature

inductive Layout where
  | number (value : Float)
  | var
  | const (c : Constant)
  | neg (operand : Layout)
  | call (f : NamedFunction) (argument : Layout)
  | binary (op : Operator) (lhs rhs : Layout)
  | group (inner : Layout)

namespace Layout

/-- The expression without its parentheses. -/
def tree : Layout → Expression
  | number v => .number v
  | var => .var
  | const c => .const c
  | neg l => .neg l.tree
  | call f l => .call f l.tree
  | binary op l r => .binary op l.tree r.tree
  | group l => l.tree

def text : Layout → String
  | number v => plainText v
  | var => "x"
  | const c => c.name
  | neg l => "-" ++ l.text
  | call f l => f.name ++ "(" ++ l.text ++ ")"
  | binary op l r => l.text ++ op.symbol ++ r.text
  | group l => "(" ++ l.text ++ ")"

def tokens : Layout → List Token
  | number v => [.number v]
  | var => [.name "x"]
  | const c => [.name c.name]
  | neg l => .minus :: l.tokens
  | call f l => .name f.name :: .openParen :: l.tokens ++ [.closeParen]
  | binary op l r => l.tokens ++ op.token :: r.tokens
  | group l => .openParen :: l.tokens ++ [.closeParen]

/-- The tightest category of the construct that is laid out. -/
def category : Layout → Category
  | binary op _ _ => op.category
  | neg _ => .signed
  | _ => .primary

/-- Every operand fits its place. -/
def Readable : Layout → Prop
  | number _ | var | const _ => True
  | neg l => l.Readable ∧ l.category.rank ≤ Category.signed.rank
  | call _ l | group l => l.Readable
  | binary op l r => (l.Readable ∧ l.category.rank ≤ op.left.rank) ∧
      r.Readable ∧ r.category.rank ≤ op.rightRead.rank

/-! ## Tokens of a layout -/

theorem balanced (l : Layout) : Balanced l.tokens := by
  induction l with
  | number | var | const => exact .single (by simp) (by simp)
  | neg l ih => exact ih.cons (by simp) (by simp)
  | call f l ih => exact ih.group.cons (by simp) (by simp)
  | binary op l r ihl ihr =>
    exact ihl.append (ihr.cons op.token_ne_openParen op.token_ne_closeParen)
  | group l ih => exact ih.group

theorem leaves_tokens (l : Layout) : leaves l.tokens = l.tree.leaves := by
  induction l with
  | number | var => rfl
  | const c => cases c <;> rfl
  | neg l ih => rw [tokens, leaves_cons, ih]; exact Nat.zero_add _
  | call f l ih =>
    show leaves (.name f.name :: (.openParen :: l.tokens ++ [.closeParen])) = l.tree.leaves + 1
    rw [leaves_cons, leaves_group, f.leaves_of_mem f.name_mem_spellings, ih, Nat.add_comm]
  | binary op l r ihl ihr =>
    have hop : op.token.leaves = 0 := by cases op <;> rfl
    rw [tokens, leaves_append, leaves_cons, hop, Nat.zero_add, ihl, ihr]
    rfl
  | group l ih => rw [tokens, leaves_group, ih]; rfl

theorem endsOperand (l : Layout) : EndsOperand l.tokens := by
  induction l with
  | number => exact .single Nat.one_pos
  | var | const => exact .single (Token.leaves_name_pos _)
  | neg l ih => exact ih.append [_]
  | call f l ih => exact (ih.append [_, _]).close
  | binary op l r _ ihr => exact (ihr.append [_]).append _
  | group l ih => exact (ih.append [_]).close

theorem begins (l : Layout) : BeginsOperand l.tokens := by
  induction l with
  | number | var | const | call | group => exact ⟨_, _, rfl, .inl rfl⟩
  | neg => exact ⟨_, _, rfl, .inr rfl⟩
  | binary op l r ihl _ => exact ihl.append _

end Layout

/-! ## What derives a construct -/

namespace Derives

variable {c : Category} {ts xs : List Token} {t : Expression}

theorem negative_inv (h : Derives c (.minus :: ts) (.neg t)) :
    Category.signed.rank ≤ c.rank ∧ Derives .signed ts t := by
  generalize hus : Token.minus :: ts = us at h
  generalize hu : Expression.neg t = u at h
  induction h with
  | number | var | const | call | reciprocal | exponential | raised | times | divided
  | juxtaposed | add | sub => cases hu
  | group => cases hus
  | positive => cases hus
  | bare _ ih | unsigned _ ih => exact absurd (ih hus hu).1 (by decide)
  | factor _ ih | term _ ih => exact ⟨by decide, (ih hus hu).2⟩
  | negative h =>
    cases hus
    cases hu
    exact ⟨le_rfl, h⟩

theorem call_inv {f : NamedFunction}
    (h : Derives c (.name f.name :: .openParen :: ts ++ [.closeParen]) (.call f t)) :
    Derives .sum ts t := by
  generalize hus : Token.name f.name :: .openParen :: ts ++ [.closeParen] = us at h
  generalize hu : Expression.call f t = u at h
  induction h with
  | number | var | const | reciprocal | raised | negative | times | divided | juxtaposed | add
  | sub => cases hu
  | group | positive => cases hus
  | bare _ ih | unsigned _ ih | factor _ ih | term _ ih => exact ih hus hu
  | call _ h =>
    cases hu
    have hts := List.append_cancel_right hus
    cases hts
    exact h
  | exponential hb _ =>
    -- after the base `e` there is no parenthesis
    cases hb with
    | const => cases (List.cons.inj hus).2
    | group => cases hus

theorem group_inv (hxs : Balanced xs) (h : Derives c (.openParen :: xs ++ [.closeParen]) t) :
    Derives .sum xs t := by
  generalize hus : Token.openParen :: xs ++ [.closeParen] = us at h
  induction h with
  | number | var | const | call | reciprocal | positive | negative => cases hus
  | group h =>
    obtain rfl := List.append_cancel_right (List.cons.inj hus).2
    exact h
  | bare _ ih | unsigned _ ih | factor _ ih | term _ ih => exact ih hus
  | exponential h _ | raised h _ _ | times h _ | divided h _ | juxtaposed h _ _ | add h _
  | sub h _ => exact absurd hus (hxs.not_split h.balanced h.endsOperand.ne_nil)

end Derives

section Binary

variable {c : Category} {op : Operator} {rs : List Token} {t : Expression}

/-- The operator between the operands of a layout is the one that the grammar finds. -/
theorem Layout.split_unique {l : Layout} {c' : Category} {k : Token} {ls rs' : List Token}
    (h : Derives c' ls l.tree) (hk : k ≠ .closeParen)
    (hsplit : l.tokens ++ op.token :: rs = ls ++ k :: rs') :
    Derives c' l.tokens l.tree ∧ op.token = k ∧ rs = rs' := by
  have hleaves : leaves l.tokens = leaves ls := by rw [l.leaves_tokens, h.leaves]
  obtain ⟨hls, hop, hrs⟩ :=
    l.endsOperand.append_unique h.endsOperand hleaves op.token_ne_closeParen hk hsplit
  exact ⟨hls ▸ h, hop, hrs⟩

theorem Layout.binary_inv {l : Layout}
    (h : Derives c (l.tokens ++ op.token :: rs) (.binary op l.tree t)) :
    op.category.rank ≤ c.rank ∧ Derives op.left l.tokens l.tree ∧
      Derives op.rightRead rs t := by
  generalize hus : l.tokens ++ op.token :: rs = us at h
  generalize hu : Expression.binary op l.tree t = u at h
  induction h with
  | number | var | const | call | exponential | negative => cases hu
  | reciprocal hs _ =>
    -- the name of a reciprocal stands for more leaves than the number one
    obtain ⟨-, hone, -⟩ := Expression.binary.inj hu
    obtain ⟨k, ks, htokens, -⟩ := l.begins
    rw [htokens] at hus
    obtain ⟨rfl, -⟩ := List.cons.inj hus
    have hleaves : 2 + leaves ks = 1 := by
      rw [← NamedFunction.leaves_of_mem_reciprocal hs, ← leaves_cons, ← htokens, l.leaves_tokens,
        hone]
      rfl
    omega
  | group h => exact absurd hus.symm (h.balanced.not_split l.balanced l.endsOperand.ne_nil)
  | positive =>
    obtain ⟨k, ks, htokens, hk⟩ := l.begins
    rw [htokens] at hus
    cases hus
    exact absurd hk (by decide)
  | bare _ ih | unsigned _ ih | factor _ ih | term _ ih =>
    obtain ⟨hc, hsides⟩ := ih hus hu
    exact ⟨hc.trans (by decide), hsides⟩
  | raised hb _ he | times hb he | divided hb he | add hb he | sub hb he =>
    cases hu
    obtain ⟨hl, -, rfl⟩ := split_unique hb (by decide) hus
    exact ⟨le_rfl, hl, he⟩
  | juxtaposed hl hk _ =>
    cases hu
    obtain ⟨-, rfl, -⟩ := split_unique hl (by rintro rfl; cases hk) hus
    cases hk

end Binary

/-! ## Reading a layout -/

namespace Layout

variable {c : Category} {l : Layout}

theorem readable_of_derives (h : Derives c l.tokens l.tree) :
    l.Readable ∧ l.category.rank ≤ c.rank := by
  induction l generalizing c with
  | number | var | const => exact ⟨trivial, Nat.zero_le _⟩
  | neg l ih =>
    obtain ⟨hc, hl⟩ := Derives.negative_inv h
    exact ⟨ih hl, hc⟩
  | call f l ih => exact ⟨(ih (Derives.call_inv h)).1, Nat.zero_le _⟩
  | binary op l r ihl ihr =>
    obtain ⟨hc, hl, hr⟩ := binary_inv h
    exact ⟨⟨ihl hl, ihr hr⟩, hc⟩
  | group l ih => exact ⟨(ih (h.group_inv l.balanced)).1, Nat.zero_le _⟩

theorem Readable.derives (h : l.Readable) (hl : l.tree.Canonical) :
    Derives l.category l.tokens l.tree := by
  induction l with
  | number v => exact .number v
  | var => exact .var
  | const c => exact .const c
  | neg l ih => exact ((ih h.1 hl).weaken h.2).negative
  | call f l ih => exact .call f.name_mem_spellings (ih h hl).sum
  | binary op l r ihl ihr =>
    obtain ⟨⟨hleft, hlc⟩, hright, hrc⟩ := h
    exact .binary hl.1 ((ihl hleft hl.2.1).weaken hlc) ((ihr hright hl.2.2).weaken hrc)
  | group l ih => exact (ih h hl).sum.group

theorem spells (hl : l.tree.Canonical) : Spells l.text l.tokens := by
  induction l with
  | number v =>
    rw [tokens, ← Expression.Canonical.printed_number hl]
    exact spells_number hl.1
  | var => exact .word (by decide) (by decide)
  | const c => cases c <;> exact .word (by decide) (by decide)
  | neg l ih => exact (ih hl).minus
  | call f l ih => exact .call f (ih hl)
  | binary op l r ihl ihr => exact .binary op (ihl hl.2.1) (ihr hl.2.2) r.begins
  | group l ih => exact (ih hl).parenthesized true

/-- A text with parentheses is read as the expression below them exactly when every operand fits
its place. -/
theorem ofFolded_iff (hl : l.tree.Canonical) :
    Expression.ofFolded l.text.toList = .ok l.tree ↔ l.Readable := by
  rw [(spells hl).ofFolded_iff]
  exact ⟨fun h => (readable_of_derives h).1, fun h => (h.derives hl).sum⟩

end Layout

end Quadrature
