import Quadrature.Json.Parser
import Quadrature.Json.Printer
import Quadrature.Proofs.Analysis.Record
import Quadrature.Request

/-!
# Requests read back

A request for some rules keeps one after the other unless it already is kept
(`Rule.distinct_eq_foldl`), so it names those that occur, each once and in the order in which they
first occur, and making it anew from its own rules changes nothing (`Request.ofRules_rules`). The
members of a document are written from the fields and read through `Request.ofRules`; as far as
the bounds read back the two agree (`Request.restores`), and a text that was read once is not
changed by further readings (`Request.distinct_and_restored`).
-/

namespace Quadrature

open Document

/-! ## Rules without repetitions -/

namespace Rule

variable {rule : Rule} {rs : List Rule}

theorem mem_distinct : rule ∈ distinct rs ↔ rule ∈ rs := by
  induction rs with
  | nil => simp [distinct]
  | cons r rs ih =>
    rw [distinct, List.mem_cons, List.mem_cons, List.mem_filter, ih]
    by_cases h : rule = r
    · simp [h]
    · simp [h]

/-- A rule is kept unless it already is. -/
def keep (kept : List Rule) (r : Rule) : List Rule :=
  if r ∈ kept then kept else kept ++ [r]

/-- A pass over the rules adds to those that are kept the distinct ones that are not yet. -/
theorem foldl_keep (rs kept : List Rule) :
    rs.foldl keep kept = kept ++ (distinct rs).filter (· ∉ kept) := by
  induction rs generalizing kept with
  | nil => exact (List.append_nil kept).symm
  | cons r rs ih =>
    rw [List.foldl_cons, ih, distinct, keep]
    split
    · next hr =>
      rw [List.filter_cons_of_neg (by simpa using hr), List.filter_filter]
      congr 1
      refine List.filter_congr fun s _ => ?_
      by_cases hs : s = r <;> simp [hs, hr]
    · next hr =>
      rw [List.filter_cons_of_pos (by simpa using hr), List.filter_filter, List.append_assoc,
        List.singleton_append]
      congr 2
      refine List.filter_congr fun s _ => ?_
      by_cases hs : s = r <;> simp [hs]

theorem distinct_eq_foldl (rs : List Rule) : distinct rs = rs.foldl keep [] := by
  rw [foldl_keep, List.nil_append]
  exact (List.filter_eq_self.2 fun _ _ => by simp).symm

theorem distinct_of_nodup (h : rs.Nodup) : distinct rs = rs := by
  induction rs with
  | nil => rfl
  | cons r rs ih =>
    obtain ⟨hr, hrs⟩ := List.nodup_cons.1 h
    rw [distinct, ih hrs, List.filter_eq_self.2]
    exact fun s hs => decide_eq_true fun heq => hr (heq ▸ hs)

/-- Of two rules the one that first occurs before the other stays before it. -/
theorem distinct_in_order (rs : List Rule) :
    (distinct rs).Pairwise fun r s => rs.idxOf r < rs.idxOf s := by
  induction rs with
  | nil => exact .nil
  | cons r rs ih =>
    have hindex {s : Rule} (hs : s ∈ (distinct rs).filter (· ≠ r)) :
        (r :: rs).idxOf s = rs.idxOf s + 1 := by
      have hne : s ≠ r := of_decide_eq_true (List.mem_filter.1 hs).2
      exact List.idxOf_cons_ne rs hne.symm
    rw [distinct, List.pairwise_cons]
    refine ⟨fun s hs => ?_, (ih.filter _).imp_of_mem fun {s t} hs ht h => ?_⟩
    · rw [List.idxOf_cons_self, hindex hs]
      exact Nat.succ_pos _
    · rw [hindex hs, hindex ht]
      exact Nat.succ_lt_succ h

theorem distinct_filter (p : Rule → Bool) (rs : List Rule) :
    distinct (rs.filter p) = (distinct rs).filter p := by
  induction rs with
  | nil => rfl
  | cons r rs ih =>
    have hcomm : ((distinct rs).filter (· ≠ r)).filter p =
        ((distinct rs).filter p).filter (· ≠ r) := by
      rw [List.filter_filter, List.filter_filter]
      exact List.filter_congr fun _ _ => Bool.and_comm _ _
    cases hr : p r with
    | true =>
      rw [List.filter_cons_of_pos hr, distinct, distinct, ih,
        List.filter_cons_of_pos hr, hcomm]
    | false =>
      have hgone : ((distinct rs).filter p).filter (· ≠ r) = (distinct rs).filter p := by
        rw [List.filter_eq_self]
        intro r' hr'
        have hp := (List.mem_filter.1 hr').2
        refine decide_eq_true fun heq => ?_
        rw [heq, hr] at hp
        cases hp
      rw [List.filter_cons_of_neg (by simp [hr]), distinct,
        List.filter_cons_of_neg (by simp [hr]), hcomm, hgone, ih]

/-- Repetitions are left out as lists leave them out. -/
theorem distinct_eq_eraseDups : ∀ rs : List Rule, distinct rs = rs.eraseDups
  | [] => rfl
  | r :: rs => by
    have hrest := distinct_eq_eraseDups (rs.filter fun r' => !r' == r)
    rw [distinct, List.eraseDups_cons, ← hrest, distinct_filter]
    congr 1
    exact List.filter_congr fun r' _ => by cases h : r' == r <;> simp_all
termination_by rs => rs.length
decreasing_by exact Nat.lt_succ_of_le (List.length_filter_le _ _)

end Rule

/-! ## Function sources -/

theorem FunctionSource.restores (source : FunctionSource) :
    Restores toDocument ofDocument? source := by
  cases source with
  | expression text => exact ⟨isWritten_ofMembers (by simpa using .string text), nofun, rfl⟩
  | predefined name => exact ⟨isWritten_ofMembers (by simpa using .string name), nofun, rfl⟩

/-! ## Requests -/

namespace Request

variable {r : Request}

theorem ofRules_rules (r : Request) :
    ofRules r.function r.a r.b r.n r.rules r.convergence = r := by
  obtain ⟨function, a, b, n, rules, convergence, hrules⟩ := r
  rw [ofRules]
  congr
  exact Rule.distinct_of_nodup hrules

/-- A request in writing, compact or indented. -/
def text (i : Indentation) (r : Request) : String :=
  String.ofList (r.toDocument.write i)

def ofJson? (text : String) : Option Request := do
  ofDocument? (← Document.parse? text)

/-- A text that is read and written again. -/
def rewritten? (i : Indentation) (text : String) : Option String :=
  (ofJson? text).map (Request.text i)

/-- The rules that a document lists, with repetitions. -/
def listed? (d : Document) : Option (List Rule) := do
  let r ← Record.ofDocument? ["function", "a", "b", "n", "rules", "convergence"] d
  r.required "rules" (toList? Rule.ofDocument?)

theorem restores (hn : r.n < UInt64.size) (ha : Restores ofFloat toFloat? r.a)
    (hb : Restores ofFloat toFloat? r.b) : Restores toDocument ofDocument? r := by
  have hfunction := r.function.restores
  have hcount := restores_nat hn
  have hrules : Restores (ofList Rule.toDocument) (toList? Rule.ofDocument?) r.rules :=
    restores_list fun rule _ => rule.restores
  have hconvergence := restores_bool r.convergence
  refine ⟨isWritten_ofMembers ?_, nofun, ?_⟩
  · simp only [List.forall_mem_cons]
    exact ⟨hfunction.written, ha.written, hb.written, hcount.written, hrules.written,
      hconvergence.written, nofun⟩
  · rw [toDocument, ofDocument?]
    refine Record.bind_ofMembers (by simp) (by simp) fun fields hfields => ?_
    simp only [List.forall_mem_cons] at hfields
    obtain ⟨hffunction, hfa, hfb, hfn, hfrules, hfconvergence, -⟩ := hfields
    rw [Record.required_eq hffunction, hfunction.read, Record.required_eq hfa, ha.read,
      Record.required_eq hfb, hb.read, Record.required_eq hfn, hcount.read,
      Record.required_eq hfrules, hrules.read, Record.withDefault_eq hfconvergence,
      hconvergence.read]
    exact congrArg some r.ofRules_rules

theorem ofJson?_text (ha : r.a.isFinite = true) (hb : r.b.isFinite = true)
    (hn : r.n < UInt64.size) (hra : JsonNumber.ReadsBack r.a) (hrb : JsonNumber.ReadsBack r.b)
    (i : Indentation) : ofJson? (r.text i) = some r := by
  have hr := restores hn (restores_float ha hra) (restores_float hb hrb)
  rw [ofJson?, text, parse?_write hr.written, Option.bind_eq_bind, Option.bind_some]
  exact hr.read

/-- What is read has finite bounds, a count of 64 bits and, each once, the rules listed. -/
theorem of_ofDocument? {d : Document} (h : ofDocument? d = some r) :
    r.a.isFinite = true ∧ r.b.isFinite = true ∧ r.n < UInt64.size ∧
      ∃ rules, listed? d = some rules ∧
        r = ofRules r.function r.a r.b r.n rules r.convergence := by
  obtain ⟨fields, hfields, h⟩ := Option.bind_eq_some_iff.1 h
  obtain ⟨function, -, h⟩ := Option.bind_eq_some_iff.1 h
  obtain ⟨a, ha, h⟩ := Option.bind_eq_some_iff.1 h
  obtain ⟨b, hb, h⟩ := Option.bind_eq_some_iff.1 h
  obtain ⟨n, hn, h⟩ := Option.bind_eq_some_iff.1 h
  obtain ⟨rules, hrules, h⟩ := Option.bind_eq_some_iff.1 h
  obtain ⟨convergence, -, h⟩ := Option.bind_eq_some_iff.1 h
  cases h
  obtain ⟨_, -, ha⟩ := Record.exists_of_required ha
  obtain ⟨_, -, hb⟩ := Record.exists_of_required hb
  obtain ⟨_, -, hn⟩ := Record.exists_of_required hn
  refine ⟨isFinite_of_toFloat? ha, isFinite_of_toFloat? hb, lt_of_toNat? hn, rules, ?_, rfl⟩
  rw [listed?, hfields, Option.bind_eq_bind, Option.bind_some]
  exact hrules

/-- A request has the rules that one pass over its list keeps, those that occur, each once and in
the order in which they first occur, and is made again from its own rules. What is read from a
text is made of the rules listed there. A request is read from its text, and a text that was read
is changed by the first rewriting only, as far as the bounds read back, which is not true of every
double (`JsonNumber.exists_not_readsBack`). -/
theorem distinct_and_restored :
    (∀ (function : FunctionSource) (a b : Float) (n : Nat) (rules : List Rule) (convergence : Bool),
      let r := ofRules function a b n rules convergence
      r.rules = rules.foldl Rule.keep [] ∧ (∀ rule, rule ∈ r.rules ↔ rule ∈ rules) ∧
        r.rules.Nodup ∧ (r.rules.Pairwise fun s t => rules.idxOf s < rules.idxOf t) ∧
        ofRules function a b n r.rules convergence = r) ∧
    (∀ (text : String) (r : Request), ofJson? text = some r → r.rules.Nodup ∧
      ∃ d rules, Document.parse? text = some d ∧ listed? d = some rules ∧
        r = ofRules r.function r.a r.b r.n rules r.convergence) ∧
    (∀ (r : Request) (i : Indentation), r.a.isFinite = true → r.b.isFinite = true →
      r.n < UInt64.size → JsonNumber.ReadsBack r.a → JsonNumber.ReadsBack r.b →
        ofJson? (r.text i) = some r) ∧
    ∀ (text : String) (r : Request) (i : Indentation), ofJson? text = some r →
      JsonNumber.ReadsBack r.a → JsonNumber.ReadsBack r.b →
        ofJson? (r.text i) = some r ∧
          (rewritten? i text).bind (rewritten? i) = rewritten? i text := by
  refine ⟨fun function a b n rules convergence => ?_, fun text r h => ?_,
    fun r i ha hb hn hra hrb => ofJson?_text ha hb hn hra hrb i, fun text r i h hra hrb => ?_⟩
  · exact ⟨Rule.distinct_eq_foldl rules, fun _ => Rule.mem_distinct, Rule.nodup_distinct rules,
      Rule.distinct_in_order rules, ofRules_rules (ofRules function a b n rules convergence)⟩
  · obtain ⟨d, hd, hr⟩ := Option.bind_eq_some_iff.1 h
    obtain ⟨-, -, -, rules, hlisted, heq⟩ := of_ofDocument? hr
    exact ⟨r.nodup_rules, d, rules, hd, hlisted, heq⟩
  · obtain ⟨d, -, hr⟩ := Option.bind_eq_some_iff.1 h
    obtain ⟨ha, hb, hn, -⟩ := of_ofDocument? hr
    have hagain : ofJson? (r.text i) = some r := ofJson?_text ha hb hn hra hrb i
    refine ⟨hagain, ?_⟩
    rw [rewritten?, h, Option.map_some, Option.bind_some, rewritten?, hagain, Option.map_some]

/-- A rule listed twice, an escaped letter and no word on convergence. -/
theorem distinct_and_restored_square :
    let text := "\x7b\"rules\":[\"Midpoint\",\"MonteCarlo\",\"Midpoint\"],\"a\":0,\"b\":1e0," ++
      "\"n\":2,\"function\":\x7b\"expression\":\"\\u0078^2\"\x7d\x7d"
    ∃ r, ofJson? text = some r ∧ r.function = .expression "x^2" ∧
      r.rules = [.fixed .midpoint, .monteCarlo] ∧ r.convergence = false ∧
      ofJson? (r.text none) = some r ∧ ofJson? (r.text (some 0)) = some r ∧
      (rewritten? none text).bind (rewritten? none) = rewritten? none text := by
  intro text
  obtain ⟨r, hr, hfunction, hrules, hconvergence, hn, ha, hb, hra, hrb⟩ : ∃ r ∈ ofJson? text,
      r.function = .expression "x^2" ∧ r.rules = [.fixed .midpoint, .monteCarlo] ∧
        r.convergence = false ∧ r.n < UInt64.size ∧ r.a.isFinite = true ∧ r.b.isFinite = true ∧
        JsonNumber.ReadsBack r.a ∧ JsonNumber.ReadsBack r.b := by
    decide +kernel
  obtain ⟨-, -, hwrite, hread⟩ := distinct_and_restored
  exact ⟨r, hr, hfunction, hrules, hconvergence, hwrite r none ha hb hn hra hrb,
    hwrite r (some 0) ha hb hn hra hrb, (hread text r none hr hra hrb).2⟩

end Request

end Quadrature
