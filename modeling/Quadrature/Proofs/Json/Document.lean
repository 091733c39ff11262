import Quadrature.Json.Parser
import Quadrature.Proofs.Json.Number
import Quadrature.Proofs.Json.String

/-!
# Documents read back

A document is written as its tokens with blanks between them, and the stack machine makes of
the tokens of a document the document. So a document whose numbers are strict and whose
strings have a value is read from its text (`Document.parse?_write`), however deep it is.
-/

namespace Quadrature

namespace Document

/-- What the text of a document can say. -/
inductive IsWritten : Document → Prop where
  | null : IsWritten null
  | bool (b : Bool) : IsWritten (bool b)
  | number {n : JsonNumber} : n.numeral.IsStrict → IsWritten (number n)
  | string (s : String) : IsWritten (string (some s))
  | array {es : List Document} : (∀ e ∈ es, IsWritten e) → IsWritten (array es)
  | object {ms : List (Option String × Document)} : (∀ m ∈ ms, m.1.isSome = true) →
      (∀ m ∈ ms, IsWritten m.2) → IsWritten (object ms)

/-! ## Tokens -/

mutual

def tokens : Document → List JsonToken
  | null => [.null]
  | bool b => [.bool b]
  | number n => [.number n]
  | string s => [.string s]
  | array [] => [.openBracket, .closeBracket]
  | array (e :: es) => .openBracket :: (tokens e ++ (elementTokens es ++ [.closeBracket]))
  | object [] => [.openBrace, .closeBrace]
  | object ((k, d) :: ms) =>
    .openBrace :: .string k :: .colon :: (tokens d ++ (memberTokens ms ++ [.closeBrace]))

/-- The tokens of the elements after the first. -/
def elementTokens : List Document → List JsonToken
  | [] => []
  | e :: es => .comma :: (tokens e ++ elementTokens es)

/-- The tokens of the members after the first. -/
def memberTokens : List (Option String × Document) → List JsonToken
  | [] => []
  | (k, d) :: ms => .comma :: .string k :: .colon :: (tokens d ++ memberTokens ms)

end

end Document

/-! ## Cutting -/

namespace JsonToken

variable {cs ds : List Char} {ts us : List JsonToken}

/-- A text is cut into the tokens, whatever comes behind that does not continue a number. -/
def CutInto (cs : List Char) (ts : List JsonToken) : Prop :=
  ∀ rest, Numeral.Ends isPowerMark rest → ofChars? (cs ++ rest) = (ofChars? rest).map (ts ++ ·)

/-- A text that does not continue a number, or is empty. -/
def Breaks (cs : List Char) : Prop :=
  ∀ rest, Numeral.Ends isPowerMark rest → Numeral.Ends isPowerMark (cs ++ rest)

theorem breaks_nil : Breaks [] := fun _ h => h

theorem breaks_cons {c : Char} (h : c.isDigit = false ∧ c ≠ '.' ∧ isPowerMark c = false)
    (cs : List Char) : Breaks (c :: cs) := by
  rintro rest - d hd
  cases hd
  exact h

theorem Breaks.append (hc : Breaks cs) (hd : Breaks ds) : Breaks (cs ++ ds) := by
  intro rest h
  rw [List.append_assoc]
  exact hc _ (hd rest h)

theorem ofChars?_blank {c : Char} (hc : isBlank c = true) (cs : List Char) :
    ofChars? (c :: cs) = ofChars? cs := by
  rw [ofChars?, if_pos hc]

theorem ofChars?_first {c : Char} {rest : List Char} {t : JsonToken} (hc : isBlank c = false)
    (h : first? c cs = some (t, rest)) : ofChars? (c :: cs) = (ofChars? rest).map (t :: ·) := by
  rw [ofChars?, if_neg (by rw [hc]; exact Bool.false_ne_true)]
  split
  · next hnone => rw [h] at hnone; cases hnone
  · next hsome => rw [h] at hsome; cases hsome; rfl

theorem cutInto_nil : CutInto [] [] := by
  intro rest _
  exact (congrFun Option.map_id (ofChars? rest)).symm

theorem CutInto.append (hc : CutInto cs ts) (hd : CutInto ds us) (hb : Breaks ds) :
    CutInto (cs ++ ds) (ts ++ us) := by
  intro rest h
  rw [List.append_assoc, hc _ (hb rest h), hd rest h, Option.map_map]
  congr 1
  funext vs
  exact (List.append_assoc ts us vs).symm

/-- A token of its own in front. -/
theorem CutInto.cons {c : Char} {t : JsonToken} (hb : isBlank c = false)
    (hc : ∀ cs, first? c cs = some (t, cs)) (h : CutInto cs ts) : CutInto (c :: cs) (t :: ts) := by
  intro rest hrest
  rw [List.cons_append, ofChars?_first hb (hc _), h rest hrest, Option.map_map]
  rfl

theorem CutInto.blank {c : Char} (hb : isBlank c = true) (h : CutInto cs ts) :
    CutInto (c :: cs) ts := by
  intro rest hrest
  rw [List.cons_append, ofChars?_blank hb, h rest hrest]

theorem CutInto.replicate_blank (h : CutInto cs ts) (n : Nat) :
    CutInto (List.replicate n ' ' ++ cs) ts := by
  induction n with
  | zero => exact h
  | succ n ih => exact ih.blank rfl

theorem CutInto.newLine (h : CutInto cs ts) (i : Document.Indentation) :
    CutInto (Document.newLine i ++ cs) ts := by
  cases i with
  | none => exact h
  | some depth => exact (h.replicate_blank _).blank rfl

theorem CutInto.colon (h : CutInto cs ts) (i : Document.Indentation) :
    CutInto (Document.colon i ++ cs) (.colon :: ts) := by
  cases i with
  | none => exact h.cons rfl fun _ => rfl
  | some depth => exact (h.blank rfl).cons rfl fun _ => rfl

theorem cutInto_quoted (s : String) : CutInto (Document.quoted (some s)) [.string (some s)] := by
  intro rest _
  obtain ⟨cs, hcs, hfirst⟩ := first?_quoted s rest
  rw [hcs, List.cons_append, ofChars?_first rfl hfirst]
  rfl

theorem cutInto_number {n : JsonNumber} (h : n.numeral.IsStrict) : CutInto n.text [.number n] := by
  intro rest hrest
  obtain ⟨c, cs, hcs, hblank, hfirst⟩ := first?_number h hrest
  rw [hcs, List.cons_append, ofChars?_first hblank hfirst]
  rfl

end JsonToken

namespace Document

open JsonToken

theorem breaks_newLine (i : Indentation) : Breaks (newLine i) := by
  cases i with
  | none => exact breaks_nil
  | some depth => exact breaks_cons (by decide) _

theorem breaks_writeElements (i : Indentation) (es : List Document) :
    Breaks (writeElements i es) := by
  cases es with
  | nil => exact breaks_nil
  | cons e es => exact breaks_cons (by decide) _

theorem breaks_writeMembers (i : Indentation) (ms : List (Option String × Document)) :
    Breaks (writeMembers i ms) := by
  cases ms with
  | nil => exact breaks_nil
  | cons m ms => exact breaks_cons (by decide) _

theorem cutInto_writeElements {i : Indentation} {es : List Document}
    (h : ∀ e ∈ es, CutInto (e.write i) e.tokens) :
    CutInto (writeElements i es) (elementTokens es) := by
  induction es with
  | nil => exact cutInto_nil
  | cons e es ih =>
    have hes := ih fun d hd => h d (List.mem_cons_of_mem e hd)
    have he := (h e List.mem_cons_self).append hes (breaks_writeElements i es)
    rw [writeElements, elementTokens, List.cons_append, List.cons_append, List.append_assoc]
    exact (he.newLine i).cons rfl fun _ => rfl

theorem cutInto_member {i : Indentation} {k : Option String} {cs : List Char} {ts : List JsonToken}
    (hk : k.isSome = true) (h : CutInto cs ts) :
    CutInto (quoted k ++ (colon i ++ cs)) (.string k :: .colon :: ts) := by
  obtain ⟨s, rfl⟩ := Option.isSome_iff_exists.1 hk
  refine (cutInto_quoted s).append (h.colon i) ?_
  cases i <;> exact breaks_cons (by decide) _

theorem cutInto_writeMembers {i : Indentation} {ms : List (Option String × Document)}
    (hkeys : ∀ m ∈ ms, m.1.isSome = true) (h : ∀ m ∈ ms, CutInto (m.2.write i) m.2.tokens) :
    CutInto (writeMembers i ms) (memberTokens ms) := by
  induction ms with
  | nil => exact cutInto_nil
  | cons m ms ih =>
    have hms := ih (fun p hp => hkeys p (List.mem_cons_of_mem m hp))
      fun p hp => h p (List.mem_cons_of_mem m hp)
    have hm := (h m List.mem_cons_self).append hms (breaks_writeMembers i ms)
    rw [writeMembers, memberTokens]
    simp only [List.cons_append, List.append_assoc]
    exact ((cutInto_member (hkeys m List.mem_cons_self) hm).newLine i).cons rfl fun _ => rfl

/-- Induction on what is written; each container ends with a bracket, so that the text behind
it is only known to break off a number. -/
theorem cutInto_write {d : Document} (h : d.IsWritten) (i : Indentation) :
    CutInto (d.write i) d.tokens := by
  induction h generalizing i with
  | null =>
    intro rest _
    rw [write, tokens]
    exact ofChars?_first rfl rfl
  | bool b =>
    intro rest _
    cases b
    · rw [write, tokens]; exact ofChars?_first rfl rfl
    · rw [write, tokens]; exact ofChars?_first rfl rfl
  | number hn => rw [write, tokens]; exact cutInto_number hn
  | string s => rw [write, tokens]; exact cutInto_quoted s
  | @array es _ ih =>
    have hclose : CutInto (newLine i ++ [']']) [.closeBracket] :=
      (cutInto_nil.cons rfl fun _ => rfl).newLine i
    have hbreaks : Breaks (newLine i ++ [']']) :=
      (breaks_newLine i).append (breaks_cons (by decide) [])
    cases es with
    | nil =>
      rw [write, tokens]
      exact (cutInto_nil.cons rfl fun _ => rfl).cons rfl fun _ => rfl
    | cons e es =>
      have hes := (cutInto_writeElements fun d hd =>
        ih d (List.mem_cons_of_mem e hd) (i.map (· + 1))).append hclose hbreaks
      have he := (ih e List.mem_cons_self (i.map (· + 1))).append hes
        ((breaks_writeElements _ es).append hbreaks)
      rw [write, tokens]
      simp only [List.cons_append, List.append_assoc]
      exact (he.newLine _).cons rfl fun _ => rfl
  | @object ms hkeys _ ih =>
    have hclose : CutInto (newLine i ++ ['}']) [.closeBrace] :=
      (cutInto_nil.cons rfl fun _ => rfl).newLine i
    have hbreaks : Breaks (newLine i ++ ['}']) :=
      (breaks_newLine i).append (breaks_cons (by decide) [])
    cases ms with
    | nil =>
      rw [write, tokens]
      exact (cutInto_nil.cons rfl fun _ => rfl).cons rfl fun _ => rfl
    | cons m ms =>
      have hms := (cutInto_writeMembers (fun p hp => hkeys p (List.mem_cons_of_mem m hp))
        fun p hp => ih p (List.mem_cons_of_mem m hp) (i.map (· + 1))).append hclose hbreaks
      have hm := (ih m List.mem_cons_self (i.map (· + 1))).append hms
        ((breaks_writeMembers _ ms).append hbreaks)
      rw [write, tokens]
      simp only [List.cons_append, List.append_assoc]
      exact ((cutInto_member (hkeys m List.mem_cons_self) hm).newLine _).cons rfl fun _ => rfl

/-! ## Reading -/

open DocumentState

variable {stack : OpenContainers} {ts : List JsonToken}

theorem run_cons {s s' : DocumentState} {t : JsonToken} (h : s.step t = some s') :
    s.run (t :: ts) = s'.run ts := by
  cases s <;> rw [run, h, Option.bind_some]

/-- An array opens with its first element as any other place does. -/
theorem run_element (d : Document) :
    (element stack).run (d.tokens ++ ts) = (value (.array [] :: stack)).run (d.tokens ++ ts) := by
  cases d with
  | null | bool | number | string => rw [tokens]; rfl
  | array es => cases es <;> rw [tokens] <;> rfl
  | object ms => cases ms <;> rw [tokens] <;> rfl

theorem run_elementTokens {es : List Document}
    (h : ∀ e ∈ es, ∀ stack ts, (value stack).run (e.tokens ++ ts) = (complete stack e).run ts)
    (acc : List Document) (d : Document) :
    (complete (.array acc :: stack) d).run (elementTokens es ++ .closeBracket :: ts) =
      (complete stack (.array ((d :: acc).reverse ++ es))).run ts := by
  induction es generalizing acc d with
  | nil =>
    rw [elementTokens, List.nil_append, List.append_nil]
    exact run_cons rfl
  | cons e es ih =>
    have hes := ih (fun x hx => h x (List.mem_cons_of_mem e hx)) (d :: acc) e
    rw [List.reverse_cons, List.append_assoc] at hes
    rw [elementTokens, List.cons_append, List.append_assoc, run_cons rfl,
      h e List.mem_cons_self, hes]
    rfl

theorem run_memberTokens {ms : List (Option String × Document)}
    (h : ∀ m ∈ ms, ∀ stack ts, (value stack).run (m.2.tokens ++ ts) = (complete stack m.2).run ts)
    (acc : List (Option String × Document)) (k : Option String) (d : Document) :
    (complete (.object acc k :: stack) d).run (memberTokens ms ++ .closeBrace :: ts) =
      (complete stack (.object (((k, d) :: acc).reverse ++ ms))).run ts := by
  induction ms generalizing acc k d with
  | nil =>
    rw [memberTokens, List.nil_append, List.append_nil]
    exact run_cons rfl
  | cons m ms ih =>
    have hms := ih (fun x hx => h x (List.mem_cons_of_mem m hx)) ((k, d) :: acc) m.1 m.2
    rw [List.reverse_cons, List.append_assoc] at hms
    rw [memberTokens, List.cons_append, List.cons_append, List.cons_append, List.append_assoc,
      run_cons rfl, run_cons rfl, run_cons rfl, h m List.mem_cons_self, hms]
    rfl

/-- The tokens of a document lead from where a value may come to where it is complete, whatever
containers are open around it. -/
theorem run_tokens {d : Document} (h : d.IsWritten) (stack : OpenContainers)
    (ts : List JsonToken) : (value stack).run (d.tokens ++ ts) = (complete stack d).run ts := by
  induction h generalizing stack ts with
  | null | bool | number | string => rw [tokens]; exact run_cons rfl
  | @array es _ ih =>
    cases es with
    | nil => rw [tokens]; exact (run_cons rfl).trans (run_cons rfl)
    | cons e es =>
      rw [tokens, List.cons_append, List.append_assoc, run_cons rfl, run_element,
        ih e List.mem_cons_self, List.append_assoc]
      exact run_elementTokens (fun x hx => ih x (List.mem_cons_of_mem e hx)) [] e
  | @object ms _ _ ih =>
    cases ms with
    | nil => rw [tokens]; exact (run_cons rfl).trans (run_cons rfl)
    | cons m ms =>
      rw [tokens, List.cons_append, List.cons_append, List.cons_append, List.append_assoc,
        run_cons rfl, run_cons rfl, run_cons rfl, ih m List.mem_cons_self, List.append_assoc]
      exact run_memberTokens (fun x hx => ih x (List.mem_cons_of_mem m hx)) [] m.1 m.2

theorem parse?_write {d : Document} (h : d.IsWritten) (i : Indentation) :
    parse? (String.ofList (d.write i)) = some d := by
  have hlex := cutInto_write h i [] nofun
  rw [List.append_nil, ofChars?, Option.map_some, List.append_nil] at hlex
  have hrun := run_tokens h [] []
  rw [List.append_nil] at hrun
  rw [parse?, String.toList_ofList, hlex]
  exact hrun

end Document

end Quadrature
