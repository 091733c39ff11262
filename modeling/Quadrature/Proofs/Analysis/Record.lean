import Quadrature.Analysis.Record
import Quadrature.Proofs.Json.Value

/-!
# Results read back

Rules are read from their names, tables from their entries in the order of the rules, and
points, results and convergence points from their records, as far as their numbers read back.
What is read from any record has finite numbers and counts of 64 bits.
-/

namespace Quadrature

open Document

/-! ## Rules -/

namespace Rule

theorem ofName?_name (rule : Rule) : ofName? rule.name = some rule := by
  rcases rule with (_ | _ | _ | _) | _ <;> decide

theorem mem_all (rule : Rule) : rule ∈ all := by
  rcases rule with (_ | _ | _ | _) | _ <;> decide

theorem restores (rule : Rule) : Restores toDocument ofDocument? rule where
  written := .string _
  ne_null := nofun
  read := ofName?_name rule

end Rule

/-! ## Tables -/

namespace RuleTable

variable {β : Type} {t : RuleTable β} {rule : Rule} {x : β}

theorem mem_toList : (rule, x) ∈ t.toList ↔ t.get? rule = some x := by
  rw [toList, List.mem_filterMap]
  constructor
  · rintro ⟨r, -, hr⟩
    obtain ⟨y, hy, heq⟩ := Option.map_eq_some_iff.1 hr
    cases heq
    exact hy
  · exact fun h => ⟨rule, rule.mem_all, by rw [h, Option.map_some]⟩

theorem ext_get? {u : RuleTable β} (h : ∀ rule, t.get? rule = u.get? rule) : t = u :=
  congrArg RuleTable.mk (funext h)

/-- Inserting the entries of a table for some rules makes another table agree with it there. -/
theorem get?_foldl_entries (t u : RuleTable β) (rules : List Rule) (rule : Rule) :
    ((rules.filterMap fun r => (t.get? r).map (r, ·)).foldl
        (fun t e => t.insert e.1 e.2) u).get? rule =
      if rule ∈ rules then (t.get? rule).or (u.get? rule) else u.get? rule := by
  induction rules generalizing u with
  | nil => rfl
  | cons r rules ih =>
    cases hr : t.get? r with
    | none =>
      rw [List.filterMap_cons_none (by rw [hr, Option.map_none]), ih]
      by_cases hrule : rule = r
      · subst hrule
        simp [hr]
      · simp [hrule]
    | some x =>
      rw [List.filterMap_cons_some (by rw [hr, Option.map_some]), List.foldl_cons, ih]
      by_cases hrule : rule = r
      · subst hrule
        simp [hr, insert]
      · simp [hrule, insert]

theorem ofList_toList (t : RuleTable β) : ofList t.toList = t := by
  refine ext_get? fun rule => ?_
  rw [ofList, toList, get?_foldl_entries, if_pos rule.mem_all]
  exact Option.or_none

theorem get?_foldl_insert_mem {entries : List (Rule × β)} {t : RuleTable β}
    (h : (entries.foldl (fun t e => t.insert e.1 e.2) t).get? rule = some x) :
    (rule, x) ∈ entries ∨ t.get? rule = some x := by
  induction entries generalizing t with
  | nil => exact .inr h
  | cons e entries ih =>
    rcases ih h with hmem | hget
    · exact .inl (List.mem_cons_of_mem e hmem)
    · simp only [RuleTable.insert] at hget
      split at hget
      · next heq =>
        cases hget
        subst heq
        exact .inl List.mem_cons_self
      · exact .inr hget

variable {write : β → Document} {read : Document → Option β}

theorem restores (h : ∀ rule, ∀ x ∈ t.get? rule, Restores write read x) :
    Restores (toDocument write) (ofDocument? read) t where
  written := isWritten_ofMembers fun m hm => by
    obtain ⟨⟨rule, x⟩, hx, rfl⟩ := List.mem_map.1 hm
    exact (h rule x (mem_toList.1 hx)).written
  ne_null := nofun
  read := by
    have hentries : (t.toList.map fun e => (some e.1.name, write e.2)).mapM
        (fun m : Option String × Document => do
          return (← m.1.bind Rule.ofName?, ← read m.2)) = some t.toList := by
      rw [mapM_eq_some, List.forall₂_map_left_iff, List.forall₂_same]
      rintro ⟨rule, x⟩ hx
      simp [Rule.ofName?_name, (h rule x (mem_toList.1 hx)).read]
    have hmembers : toDocument write t =
        object (t.toList.map fun e => (some e.1.name, write e.2)) := by
      rw [toDocument, ofMembers, List.map_map]
      rfl
    rw [hmembers, ofDocument?, hentries]
    exact congrArg some (ofList_toList t)

theorem exists_of_ofDocument? {d : Document} (h : ofDocument? read d = some t)
    (hx : t.get? rule = some x) : ∃ e, read e = some x := by
  cases d with
  | object ms =>
    obtain ⟨entries, hentries, h⟩ := Option.bind_eq_some_iff.1 h
    cases h
    rcases get?_foldl_insert_mem hx with hmem | hnone
    · obtain ⟨m, -, hm⟩ := exists_of_mem_mapM hentries hmem
      obtain ⟨r, -, hm⟩ := Option.bind_eq_some_iff.1 hm
      obtain ⟨y, hy, hm⟩ := Option.bind_eq_some_iff.1 hm
      cases hm
      exact ⟨m.2, hy⟩
    · cases hnone
  | _ => cases h

end RuleTable

/-! ## Points -/

namespace Point

def numbers (p : Point) : List Float :=
  [p.x, p.y]

theorem restores {p : Point} (h : ∀ x ∈ p.numbers, Restores ofFloat toFloat? x) :
    Restores toDocument ofDocument? p := by
  have hx := h p.x (by simp [numbers])
  have hy := h p.y (by simp [numbers])
  refine ⟨isWritten_ofMembers ?_, nofun, ?_⟩
  · simp only [List.forall_mem_cons]
    exact ⟨hx.written, hy.written, nofun⟩
  · rw [toDocument, ofDocument?]
    refine Record.bind_ofMembers (by simp) (by simp) fun fields hfields => ?_
    simp only [List.forall_mem_cons] at hfields
    obtain ⟨hfx, hfy, -⟩ := hfields
    rw [Record.required_eq hfx, hx.read, Record.required_eq hfy, hy.read]
    rfl

theorem isFinite_of_ofDocument? {d : Document} {p : Point} (h : ofDocument? d = some p) :
    ∀ x ∈ p.numbers, x.isFinite = true := by
  obtain ⟨r, -, h⟩ := Option.bind_eq_some_iff.1 h
  obtain ⟨x, hx, h⟩ := Option.bind_eq_some_iff.1 h
  obtain ⟨y, hy, h⟩ := Option.bind_eq_some_iff.1 h
  cases h
  obtain ⟨dx, -, hx⟩ := Record.exists_of_required hx
  obtain ⟨dy, -, hy⟩ := Record.exists_of_required hy
  simp only [numbers, List.forall_mem_cons]
  exact ⟨isFinite_of_toFloat? hx, isFinite_of_toFloat? hy, nofun⟩

end Point

/-! ## Results -/

namespace RuleResult

def numbers (r : RuleResult) : List Float :=
  r.value.toList ++ r.errorBound.toList ++ r.absoluteError.toList ++ r.relativeError.toList

theorem restores {r : RuleResult} (h : ∀ x ∈ r.numbers, Restores ofFloat toFloat? x) :
    Restores toDocument ofDocument? r := by
  have hvalue : ∀ x ∈ r.value, Restores ofFloat toFloat? x :=
    fun x hx => h x (by simp_all [numbers])
  have hbound : ∀ x ∈ r.errorBound, Restores ofFloat toFloat? x :=
    fun x hx => h x (by simp_all [numbers])
  have habsolute : ∀ x ∈ r.absoluteError, Restores ofFloat toFloat? x :=
    fun x hx => h x (by simp_all [numbers])
  have hrelative : ∀ x ∈ r.relativeError, Restores ofFloat toFloat? x :=
    fun x hx => h x (by simp_all [numbers])
  have hfailure : ∀ s ∈ r.failure, Restores ofString toString? s := fun s _ => restores_string s
  refine ⟨isWritten_ofMembers ?_, nofun, ?_⟩
  · simp only [List.forall_mem_cons]
    exact ⟨(Rule.restores r.rule).written, isWritten_ofOption hvalue, isWritten_ofOption hbound,
      isWritten_ofOption habsolute, isWritten_ofOption hrelative, isWritten_ofOption hfailure, nofun⟩
  · rw [toDocument, ofDocument?]
    refine Record.bind_ofMembers (by simp) (by simp) fun fields hfields => ?_
    simp only [List.forall_mem_cons] at hfields
    obtain ⟨hfrule, hfvalue, hfbound, hfabsolute, hfrelative, hffailure, -⟩ := hfields
    rw [Record.required_eq hfrule, (Rule.restores r.rule).read,
      Record.optional_eq hfvalue, toOption?_ofOption hvalue,
      Record.optional_eq hfbound, toOption?_ofOption hbound,
      Record.optional_eq hfabsolute, toOption?_ofOption habsolute,
      Record.optional_eq hfrelative, toOption?_ofOption hrelative,
      Record.optional_eq hffailure, toOption?_ofOption hfailure]
    rfl

theorem isFinite_of_ofDocument? {d : Document} {r : RuleResult} (h : ofDocument? d = some r) :
    ∀ x ∈ r.numbers, x.isFinite = true := by
  obtain ⟨fields, -, h⟩ := Option.bind_eq_some_iff.1 h
  obtain ⟨rule, -, h⟩ := Option.bind_eq_some_iff.1 h
  obtain ⟨value, hvalue, h⟩ := Option.bind_eq_some_iff.1 h
  obtain ⟨bound, hbound, h⟩ := Option.bind_eq_some_iff.1 h
  obtain ⟨absolute, habsolute, h⟩ := Option.bind_eq_some_iff.1 h
  obtain ⟨relative, hrelative, h⟩ := Option.bind_eq_some_iff.1 h
  obtain ⟨failure, -, h⟩ := Option.bind_eq_some_iff.1 h
  cases h
  have hfinite {name : String} {o : Option Float} (ho : fields.optional name toFloat? = some o) :
      ∀ x ∈ o.toList, x.isFinite = true := by
    intro x hx
    obtain rfl := Option.mem_toList.1 hx
    obtain ⟨d, hd⟩ := Record.exists_of_optional ho
    exact isFinite_of_toFloat? hd
  simp only [numbers, List.forall_mem_append]
  exact ⟨⟨⟨hfinite hvalue, hfinite hbound⟩, hfinite habsolute⟩, hfinite hrelative⟩

end RuleResult

/-! ## Convergence points -/

namespace ConvergencePoint

def numbers (p : ConvergencePoint) : List Float :=
  p.values.toList.map Prod.snd

theorem mem_numbers {p : ConvergencePoint} {x : Float} :
    x ∈ p.numbers ↔ ∃ rule, p.values.get? rule = some x := by
  simp [numbers, RuleTable.mem_toList]

theorem restores {p : ConvergencePoint} (hn : p.n < UInt64.size)
    (h : ∀ x ∈ p.numbers, Restores ofFloat toFloat? x) : Restores toDocument ofDocument? p := by
  have hcount := restores_nat hn
  have hvalues : Restores (RuleTable.toDocument ofFloat) (RuleTable.ofDocument? toFloat?) p.values :=
    RuleTable.restores fun rule x hx => h x (mem_numbers.2 ⟨rule, hx⟩)
  refine ⟨isWritten_ofMembers ?_, nofun, ?_⟩
  · simp only [List.forall_mem_cons]
    exact ⟨hcount.written, hvalues.written, nofun⟩
  · rw [toDocument, ofDocument?]
    refine Record.bind_ofMembers (by simp) (by simp) fun fields hfields => ?_
    simp only [List.forall_mem_cons] at hfields
    obtain ⟨hfn, hfvalues, -⟩ := hfields
    rw [Record.required_eq hfn, hcount.read, Record.required_eq hfvalues, hvalues.read]
    rfl

theorem of_ofDocument? {d : Document} {p : ConvergencePoint} (h : ofDocument? d = some p) :
    p.n < UInt64.size ∧ ∀ x ∈ p.numbers, x.isFinite = true := by
  obtain ⟨fields, -, h⟩ := Option.bind_eq_some_iff.1 h
  obtain ⟨n, hn, h⟩ := Option.bind_eq_some_iff.1 h
  obtain ⟨values, hvalues, h⟩ := Option.bind_eq_some_iff.1 h
  cases h
  obtain ⟨dn, -, hn⟩ := Record.exists_of_required hn
  obtain ⟨dv, -, hvalues⟩ := Record.exists_of_required hvalues
  refine ⟨lt_of_toNat? hn, fun x hx => ?_⟩
  obtain ⟨rule, hrule⟩ := mem_numbers.1 hx
  obtain ⟨e, he⟩ := RuleTable.exists_of_ofDocument? hvalues hrule
  exact isFinite_of_toFloat? he

end ConvergencePoint

end Quadrature
