import Quadrature.Proofs.Expression.Layout

/-!
# The parentheses of a normalized text

`Expression.enclosures` lists the pairs of parentheses that are printed around operands, from left
to right. They are needed: without one of them a text is not read as the same expression, unless
the operand is a sign in an exponent (`ofFolded_without_enclosure`). The text without a pair is
that of a layout in which one operand may not fit its place.
-/

namespace Quadrature

/-- A pair of parentheses around an operand: the text before it, the operand, the text after it,
and whether the operand stands as an exponent. -/
structure Enclosure where
  before : String
  operand : Expression
  after : String
  isExponent : Bool
  deriving DecidableEq

namespace Enclosure

def text (p : Enclosure) : String :=
  p.before ++ "(" ++ p.operand.text ++ ")" ++ p.after

/-- The text with the pair deleted. -/
def bareText (p : Enclosure) : String :=
  p.before ++ p.operand.text ++ p.after

/-- The pair in a longer text. -/
def within (before after : String) (p : Enclosure) : Enclosure :=
  { p with before := before ++ p.before, after := p.after ++ after }

/-- A sign in an exponent is read without parentheses too. -/
def IsSignedExponent (p : Enclosure) : Prop :=
  p.isExponent = true ∧ ∃ u, p.operand = .neg u

/-- The pairs are opened one after the other. -/
def InOrder (ps : List Enclosure) : Prop :=
  ps.Pairwise fun p q => p.before.length < q.before.length

variable (before after : String) (p : Enclosure)

theorem text_within : (p.within before after).text = before ++ p.text ++ after := by
  simp only [text, within, String.append_assoc]

theorem bareText_within :
    (p.within before after).bareText = before ++ p.bareText ++ after := by
  simp only [bareText, within, String.append_assoc]

theorem InOrder.within {ps : List Enclosure} (h : InOrder ps) :
    InOrder (ps.map (.within before after)) := by
  refine List.pairwise_map.2 (h.imp fun hpq => ?_)
  simpa [Enclosure.within] using hpq

end Enclosure

namespace Expression

/-- How an operand is printed in a place of category `c`. -/
def operandText (t : Expression) (c : Category) : String :=
  parenthesized t.text (!t.fits c)

/-- The pairs in the text of an operand in a place of category `c`: its own, if it does not fit,
and those inside. -/
def operandEnclosures (t : Expression) (c : Category) (isExponent : Bool)
    (inside : List Enclosure) : List Enclosure :=
  if t.fits c then inside
  else ⟨"", t, "", isExponent⟩ :: inside.map (.within "(" ")")

/-- The pairs of parentheses that are printed around operands. -/
def enclosures : Expression → List Enclosure
  | number _ | var | const _ => []
  | neg t => (t.operandEnclosures .signed false t.enclosures).map (.within "-" "")
  | call f t => t.enclosures.map (.within (f.name ++ "(") ")")
  | binary op l r =>
    (l.operandEnclosures op.left false l.enclosures).map
        (.within "" (op.symbol ++ r.operandText op.right)) ++
      (r.operandEnclosures op.right (op = .pow) r.enclosures).map
        (.within (l.operandText op.left ++ op.symbol) "")

/-- Every call prints a pair of parentheses too. -/
def calls : Expression → ℕ
  | number _ | var | const _ => 0
  | neg t => t.calls
  | call _ t => t.calls + 1
  | binary _ l r => l.calls + r.calls

variable {t : Expression}

theorem text_operandEnclosures {c : Category} {isExponent : Bool} {inside : List Enclosure}
    (h : ∀ p ∈ inside, p.text = t.text) :
    ∀ p ∈ t.operandEnclosures c isExponent inside, p.text = t.operandText c := by
  intro p hp
  rw [operandEnclosures] at hp
  rw [operandText]
  split at hp
  · next hfit => rw [hfit, h p hp]; rfl
  · next hfit =>
    rw [Bool.not_eq_true] at hfit
    rw [hfit]
    rcases List.mem_cons.1 hp with rfl | hp
    · simp [Enclosure.text, parenthesized]
    · obtain ⟨q, hq, rfl⟩ := List.mem_map.1 hp
      rw [Enclosure.text_within, h q hq]
      rfl

/-- With its pairs the text is the printed one. -/
theorem text_enclosures (t : Expression) : ∀ p ∈ t.enclosures, p.text = t.text := by
  induction t with
  | number | var | const => intro p hp; cases hp
  | neg t ih =>
    intro p hp
    obtain ⟨q, hq, rfl⟩ := List.mem_map.1 hp
    rw [Enclosure.text_within, text_operandEnclosures ih q hq, text_neg, String.append_empty]
    rfl
  | call f t ih =>
    intro p hp
    obtain ⟨q, hq, rfl⟩ := List.mem_map.1 hp
    rw [Enclosure.text_within, ih q hq]
    rfl
  | binary op l r ihl ihr =>
    intro p hp
    rw [text_binary]
    rcases List.mem_append.1 hp with hp | hp
    · obtain ⟨q, hq, rfl⟩ := List.mem_map.1 hp
      rw [Enclosure.text_within, text_operandEnclosures ihl q hq, String.empty_append,
        ← String.append_assoc]
      rfl
    · obtain ⟨q, hq, rfl⟩ := List.mem_map.1 hp
      rw [Enclosure.text_within, text_operandEnclosures ihr q hq, String.append_empty]
      rfl

/-! ## Layouts of the printed text -/

/-- The layout of an operand that is printed in a place of category `c`. -/
def operandLayout (t : Expression) (c : Category) (inside : Layout) : Layout :=
  if t.fits c then inside else .group inside

/-- The layout of the printed text. -/
def layout : Expression → Layout
  | number v => .number v
  | var => .var
  | const c => .const c
  | neg t => .neg (t.operandLayout .signed t.layout)
  | call f t => .call f t.layout
  | binary op l r =>
    .binary op (l.operandLayout op.left l.layout) (r.operandLayout op.right r.layout)

section OperandLayout

variable {c d : Category} {inside : Layout}

theorem tree_operandLayout (h : inside.tree = t) : (t.operandLayout c inside).tree = t := by
  rw [operandLayout]
  split <;> exact h

theorem text_operandLayout (h : inside.text = t.text) :
    (t.operandLayout c inside).text = t.operandText c := by
  rw [operandLayout, operandText, ← h]
  cases t.fits c <;> rfl

theorem readable_operandLayout (hcd : c.rank ≤ d.rank) (hinside : inside.category = t.category) :
    (t.operandLayout c inside).Readable ∧ (t.operandLayout c inside).category.rank ≤ d.rank ↔
      inside.Readable := by
  rw [operandLayout]
  split
  · next hfit =>
    rw [hinside]
    exact and_iff_left ((of_decide_eq_true hfit).trans hcd)
  · exact and_iff_left (Nat.zero_le _)

end OperandLayout

theorem layout_tree (t : Expression) : t.layout.tree = t := by
  induction t with
  | number | var | const => rfl
  | neg t ih => rw [layout, Layout.tree, tree_operandLayout ih]
  | call f t ih => rw [layout, Layout.tree, ih]
  | binary op l r ihl ihr =>
    rw [layout, Layout.tree, tree_operandLayout ihl, tree_operandLayout ihr]

theorem layout_text (t : Expression) : t.layout.text = t.text := by
  induction t with
  | number | var | const => rfl
  | neg t ih => rw [layout, Layout.text, text_operandLayout ih, text_neg]; rfl
  | call f t ih => rw [layout, Layout.text, ih]; rfl
  | binary op l r ihl ihr =>
    rw [layout, Layout.text, text_operandLayout ihl, text_operandLayout ihr, text_binary]
    rfl

theorem layout_category (t : Expression) : t.layout.category = t.category := by
  cases t <;> rfl

theorem layout_readable (t : Expression) : t.layout.Readable := by
  induction t with
  | number | var | const => trivial
  | neg t ih => exact (readable_operandLayout le_rfl t.layout_category).2 ih
  | call f t ih => exact ih
  | binary op l r ihl ihr =>
    exact ⟨(readable_operandLayout le_rfl l.layout_category).2 ihl,
      (readable_operandLayout op.right_le_rightRead r.layout_category).2 ihr⟩

/-- A printed operand fits its place. -/
theorem readable_layout (t : Expression) {c d : Category} (hcd : c.rank ≤ d.rank) :
    (t.operandLayout c t.layout).Readable ∧
      (t.operandLayout c t.layout).category.rank ≤ d.rank :=
  (readable_operandLayout hcd t.layout_category).2 t.layout_readable

/-! ## The text without a pair -/

theorem rank_le_of_not_fits {c : Category} (h : t.fits c = false) :
    t.category.rank ≤ c.rank ↔ false = true ∧ ∃ u, t = .neg u :=
  iff_of_false (of_decide_eq_false h) (by simp)

/-- What is printed in parentheses to the right of an operator is read without them only if it is
a sign in an exponent. -/
theorem rank_le_rightRead {op : Operator} (h : t.fits op.right = false) :
    t.category.rank ≤ op.rightRead.rank ↔ decide (op = .pow) = true ∧ ∃ u, t = .neg u := by
  by_cases hop : op = .pow
  · subst hop
    cases t with
    | binary op =>
      -- no operator makes a construct between powers and products
      have hgap : op.category.rank ≤ 1 ∨ 2 < op.category.rank := by cases op <;> decide
      have hrank : ¬ op.category.rank ≤ 1 := of_decide_eq_false h
      exact iff_of_false (Nat.not_le.2 (hgap.resolve_left hrank)) (by simp)
    | neg u => exact iff_of_true le_rfl ⟨rfl, u, rfl⟩
    | number | var | const | call => cases h
  · have hread : op.rightRead = op.right := by cases op <;> first | rfl | exact absurd rfl hop
    rw [hread, decide_eq_false hop]
    exact rank_le_of_not_fits h

/-- The text of an operand without a pair is laid out so that it fits a place of category `d`
exactly for a sign in an exponent. -/
theorem exists_operandLayout {c d : Category} {isExponent : Bool} {inside : List Enclosure}
    (hcd : c.rank ≤ d.rank)
    (hplace : t.fits c = false →
      (t.category.rank ≤ d.rank ↔ isExponent = true ∧ ∃ u, t = .neg u))
    (h : ∀ p ∈ inside, ∃ l : Layout, l.tree = t ∧ l.category = t.category ∧
      l.text = p.bareText ∧ (l.Readable ↔ p.IsSignedExponent)) :
    ∀ p ∈ t.operandEnclosures c isExponent inside, ∃ l : Layout, l.tree = t ∧
      l.text = p.bareText ∧ (l.Readable ∧ l.category.rank ≤ d.rank ↔ p.IsSignedExponent) := by
  intro p hp
  rw [operandEnclosures] at hp
  split at hp
  · next hfit =>
    obtain ⟨l, htree, hcategory, htext, hl⟩ := h p hp
    have hrank : l.category.rank ≤ d.rank := hcategory ▸ (of_decide_eq_true hfit).trans hcd
    exact ⟨l, htree, htext, by rw [and_iff_left hrank, hl]⟩
  · next hfit =>
    rcases List.mem_cons.1 hp with rfl | hp
    · have hplace := hplace (Bool.eq_false_of_not_eq_true hfit)
      refine ⟨t.layout, t.layout_tree, ?_, ?_⟩
      · simp [Enclosure.bareText, layout_text]
      · rw [and_iff_right t.layout_readable, layout_category, hplace]
        rfl
    · obtain ⟨q, hq, rfl⟩ := List.mem_map.1 hp
      obtain ⟨l, htree, -, htext, hl⟩ := h q hq
      refine ⟨.group l, htree, ?_, ?_⟩
      · rw [Enclosure.bareText_within, ← htext]
        rfl
      · exact (and_iff_left (Nat.zero_le _)).trans hl

theorem exists_layout (t : Expression) : ∀ p ∈ t.enclosures, ∃ l : Layout, l.tree = t ∧
    l.category = t.category ∧ l.text = p.bareText ∧ (l.Readable ↔ p.IsSignedExponent) := by
  induction t with
  | number | var | const => intro p hp; cases hp
  | neg t ih =>
    intro p hp
    obtain ⟨q, hq, rfl⟩ := List.mem_map.1 hp
    obtain ⟨l, htree, htext, hl⟩ := exists_operandLayout le_rfl rank_le_of_not_fits ih q hq
    refine ⟨.neg l, by rw [Layout.tree, htree], rfl, ?_, hl⟩
    rw [Enclosure.bareText_within, String.append_empty, ← htext]
    rfl
  | call f t ih =>
    intro p hp
    obtain ⟨q, hq, rfl⟩ := List.mem_map.1 hp
    obtain ⟨l, htree, -, htext, hl⟩ := ih q hq
    refine ⟨.call f l, by rw [Layout.tree, htree], rfl, ?_, hl⟩
    rw [Enclosure.bareText_within, ← htext]
    rfl
  | binary op l r ihl ihr =>
    intro p hp
    rcases List.mem_append.1 hp with hp | hp
    · obtain ⟨q, hq, rfl⟩ := List.mem_map.1 hp
      obtain ⟨l', htree, htext, hl⟩ := exists_operandLayout le_rfl rank_le_of_not_fits ihl q hq
      have hright := r.readable_layout op.right_le_rightRead
      refine ⟨.binary op l' (r.operandLayout op.right r.layout), ?_, rfl, ?_, ?_⟩
      · rw [Layout.tree, htree, tree_operandLayout r.layout_tree]
      · rw [Enclosure.bareText_within, String.empty_append, ← htext, Layout.text,
          text_operandLayout r.layout_text, String.append_assoc]
      · exact (and_iff_left hright).trans hl
    · obtain ⟨q, hq, rfl⟩ := List.mem_map.1 hp
      obtain ⟨r', htree, htext, hr⟩ :=
        exists_operandLayout op.right_le_rightRead rank_le_rightRead ihr q hq
      have hleft := l.readable_layout (le_refl op.left.rank)
      refine ⟨.binary op (l.operandLayout op.left l.layout) r', ?_, rfl, ?_, ?_⟩
      · rw [Layout.tree, htree, tree_operandLayout l.layout_tree]
      · rw [Enclosure.bareText_within, String.append_empty, ← htext, Layout.text,
          text_operandLayout l.layout_text]
      · exact (and_iff_right hleft).trans hr

/-! ## All pairs of a text -/

theorem inOrder_operandEnclosures {c : Category} {isExponent : Bool} {inside : List Enclosure}
    (h : Enclosure.InOrder inside) :
    Enclosure.InOrder (t.operandEnclosures c isExponent inside) := by
  rw [operandEnclosures]
  split
  · exact h
  · refine List.pairwise_cons.2 ⟨fun p hp => ?_, h.within "(" ")"⟩
    obtain ⟨q, -, rfl⟩ := List.mem_map.1 hp
    rw [Enclosure.within, String.length_append]
    exact Nat.add_pos_left Nat.one_pos _

/-- The pairs are listed in the order in which they are opened. -/
theorem inOrder_enclosures (t : Expression) : Enclosure.InOrder t.enclosures := by
  induction t with
  | number | var | const => exact .nil
  | neg t ih => exact (inOrder_operandEnclosures ih).within "-" ""
  | call f t ih => exact ih.within (f.name ++ "(") ")"
  | binary op l r ihl ihr =>
    refine List.pairwise_append.2 ⟨(inOrder_operandEnclosures ihl).within _ _,
      (inOrder_operandEnclosures ihr).within _ _, fun p hp q hq => ?_⟩
    obtain ⟨p, hleft, rfl⟩ := List.mem_map.1 hp
    obtain ⟨q, -, rfl⟩ := List.mem_map.1 hq
    have htext := congrArg String.length (text_operandEnclosures l.text_enclosures p hleft)
    simp only [Enclosure.text, String.length_append] at htext
    simp only [Enclosure.within, String.length_append]
    have hparen : "(".length = 1 := rfl
    have hempty : "".length = 0 := rfl
    omega

theorem count_plainText {v : Float} (hv : v.isFinite = true) :
    (plainText v).toList.count '(' = 0 := by
  obtain ⟨n, hn, htext, -⟩ := plainText_spells hv
  have hsign : '(' ∉ (signText v).toList := by
    rw [signText]
    split <;> decide
  have hliteral : '(' ∉ n.text := fun h => by
    rcases (hn.isLiteral fun _ => false).mem_text h with h | h | h | h | h <;> cases h
  rw [htext, List.count_append, List.count_eq_zero_of_not_mem hsign,
    List.count_eq_zero_of_not_mem hliteral]

theorem count_operandText (c : Category) (isExponent : Bool)
    (h : t.text.toList.count '(' = t.calls + t.enclosures.length) :
    (t.operandText c).toList.count '(' =
      t.calls + (t.operandEnclosures c isExponent t.enclosures).length := by
  rw [operandText, operandEnclosures]
  cases t.fits c with
  | true => exact h
  | false =>
    have hown : (parenthesized t.text true).toList.count '(' = t.text.toList.count '(' + 1 := by
      simp [parenthesized]
    simp only [Bool.not_false, hown, h, Bool.false_eq_true, if_false, List.length_cons,
      List.length_map]
    omega

/-- Other parentheses are those of calls. -/
theorem count_text (h : t.Finite) :
    t.text.toList.count '(' = t.calls + t.enclosures.length := by
  induction t with
  | number v => exact count_plainText h
  | var => rfl
  | const c => cases c <;> rfl
  | neg t ih =>
    have hoperand := count_operandText .signed false (ih h)
    rw [text_neg, enclosures, List.length_map, calls, ← hoperand, String.toList_append,
      List.count_append]
    exact Nat.zero_add _
  | call f t ih =>
    have hname : f.name.toList.count '(' = 0 := by cases f <;> decide
    simp only [text, enclosures, calls, String.toList_append, List.count_append, hname, ih h,
      List.length_map]
    show 0 + 1 + (t.calls + t.enclosures.length) + 0 = t.calls + 1 + t.enclosures.length
    omega
  | binary op l r ihl ihr =>
    have hsymbol : op.symbol.toList.count '(' = 0 := by cases op <;> decide
    have hl := count_operandText op.left false (ihl h.1)
    have hr := count_operandText op.right (op = .pow) (ihr h.2)
    rw [operandText] at hl hr
    rw [text_binary, enclosures, calls, List.length_append, List.length_map, List.length_map,
      String.toList_append, String.toList_append, List.count_append, List.count_append, hsymbol,
      hl, hr]
    omega

end Expression

/-- Without a pair of the parentheses that are printed around operands, the text of a canonical
expression is not read as the same expression, unless the operand is a sign in an exponent. The
pairs are all parentheses of the text but those of calls, in their order. -/
theorem ofFolded_without_enclosure {t : Expression} (h : t.Canonical) :
    Enclosure.InOrder t.enclosures ∧
      t.text.toList.count '(' = t.calls + t.enclosures.length ∧
      ∀ p ∈ t.enclosures,
        t.text = p.before ++ "(" ++ p.operand.text ++ ")" ++ p.after ∧
          (Expression.ofFolded (p.before ++ p.operand.text ++ p.after).toList = .ok t ↔
            p.isExponent = true ∧ ∃ u, p.operand = .neg u) := by
  refine ⟨t.inOrder_enclosures, Expression.count_text h.finite, fun p hp => ?_⟩
  obtain ⟨l, rfl, -, htext, hl⟩ := t.exists_layout p hp
  refine ⟨(Expression.text_enclosures _ p hp).symm, ?_⟩
  have hread := l.ofFolded_iff h
  rw [htext] at hread
  exact hread.trans hl

/-- Of the two pairs in `(x+e)*x^(-x)` the first is needed. -/
theorem ofFolded_without_enclosure_product :
    let t : Expression :=
      .binary .mul (.binary .add .var (.const .e)) (.binary .pow .var (.neg .var))
    t.Canonical ∧ t.text = "(x+e)*x^(-x)" ∧
      Expression.ofFolded "x+e*x^(-x)".toList ≠ .ok t ∧
      Expression.ofFolded "(x+e)*x^-x".toList = .ok t := by
  intro t
  have ht : t.Canonical := ⟨by simp, ⟨by simp, trivial, trivial⟩, ⟨by simp, trivial, trivial⟩⟩
  have hpairs := (ofFolded_without_enclosure ht).2.2
  have hfirst := (hpairs ⟨"", .binary .add .var (.const .e), "*x^(-x)", false⟩ (by decide)).2
  have hsecond := (hpairs ⟨"(x+e)*x^", .neg .var, "", true⟩ (by decide)).2
  refine ⟨ht, by decide, fun h => ?_, hsecond.2 ⟨rfl, .var, rfl⟩⟩
  cases (hfirst.1 h).1

end Quadrature
