import Quadrature.Catalogue.Basic
import Quadrature.Proofs.Json.Record
import Quadrature.Proofs.Rule.Error

/-!
# Entries from documents

What a document adds to a catalogue depends on the document alone (`Entry.examine`). Its name
is read twice, for the heading and for the entry, and both times it is the same
(`Entry.name_of_heading`), so that a catalogue holds every entry under its own name. Of a
list of documents those before the first that is no entry are added
(`Catalogue.insertDocuments_eq`), and of entries with one name the last is found
(`Catalogue.getElem?_foldl_insert`).
-/

namespace Quadrature

namespace Entry

variable {d : Document} {ds : List Document} {draft : Draft} {heading : Heading} {e : Entry}

/-! ## The name of an entry -/

theorem exists_of_heading (h : Heading.ofDocument? d = some heading) :
    ∃ r, Record.ofDocument? ["name"] d = some r ∧
      r.required "name" Document.toString? = some heading.name := by
  simp only [Heading.ofDocument?, Option.bind_eq_bind, Option.bind_eq_some_iff] at h
  obtain ⟨r, hr, name, hname, hheading⟩ := h
  cases hheading
  exact ⟨r, hr, hname⟩

theorem exists_of_draft (h : Draft.ofDocument? d = some draft) :
    ∃ r, Record.ofDocument?
        ["name", "label", "expression", "antiderivative", "description", "singularities"] d =
          some r ∧
      r.required "name" Document.toString? = some draft.name ∧
      r.required "expression" Document.toString? = some draft.expression := by
  simp only [Draft.ofDocument?, Option.bind_eq_bind, Option.bind_eq_some_iff] at h
  obtain ⟨r, hr, expression, hexpression, label, -, name, hname, antiderivative, -, description, -,
    singularities, -, hdraft⟩ := h
  cases hdraft
  exact ⟨r, hr, hname, hexpression⟩

/-- Both readings find the name in the same place. As an array a heading has no room for the
expression of an entry. -/
theorem name_of_draft (hheading : Heading.ofDocument? d = some heading)
    (hdraft : Draft.ofDocument? d = some draft) : draft.name = heading.name := by
  obtain ⟨r, hr, hname⟩ := exists_of_heading hheading
  obtain ⟨r', hr', hname', hexpression⟩ := exists_of_draft hdraft
  cases d with
  | object ms =>
    rw [Record.required, Record.field?_object hr (by decide)] at hname
    rw [Record.required, Record.field?_object hr' (by decide), hname] at hname'
    exact (Option.some.inj hname').symm
  | array ds =>
    obtain ⟨-, hlen⟩ := Record.ofDocument?_array hr
    obtain ⟨rfl, -⟩ := Record.ofDocument?_array hr'
    rcases ds with _ | ⟨_, _ | ⟨_, _⟩⟩
    · cases hexpression
    · cases hexpression
    · simp at hlen
  | null | bool | number | string => cases hr

/-- The last entry with a name. -/
def lastNamed (es : List Entry) (name : String) : Option Entry :=
  es.reverse.find? (·.name == name)

theorem name_of_lastNamed {es : List Entry} {name : String} (h : lastNamed es name = some e) :
    e.name = name := by
  simpa using List.find?_some h

variable [Elementary Float]

theorem name_of_heading (hheading : Heading.ofDocument? d = some heading)
    (he : ofDocument d = .ok e) : e.name = heading.name := by
  rw [ofDocument] at he
  split at he
  · next draft hdraft =>
    obtain ⟨formula, -, he⟩ := bind_eq_ok.1 he
    obtain ⟨antiderivative, -, he⟩ := bind_eq_ok.1 he
    cases he
    exact name_of_draft hheading hdraft
  · cases he

/-! ## Entries of documents -/

/-- What a document adds to a catalogue, whatever there is in it. -/
def examine (d : Document) : Except CatalogueError Entry :=
  match Heading.ofDocument? d with
  | some _ => ofDocument d
  | none => .error .malformedDocument

/-- What documents add to a catalogue: the entries up to the first of them that is none. -/
def admitted : List Document → List Entry
  | [] => []
  | d :: ds =>
    match examine d with
    | .ok e => e :: admitted ds
    | .error _ => []

/-- How the documents of one call fare: all of them are entries, or the one behind some
entries is none, for the reason that the call gives. -/
inductive Fares : List Document → List Entry → Except CatalogueError Unit → Prop where
  | all {ds : List Document} {es : List Entry} :
      List.Forall₂ (fun d e => examine d = .ok e) ds es → Fares ds es (.ok ())
  | upTo {ds : List Document} {d : Document} {rest : List Document} {es : List Entry}
      {cause : CatalogueError} : List.Forall₂ (fun d e => examine d = .ok e) ds es →
      examine d = .error cause → Fares (ds ++ d :: rest) es (.error cause)

theorem Fares.cons {es : List Entry} {outcome : Except CatalogueError Unit}
    (he : examine d = .ok e) (h : Fares ds es outcome) : Fares (d :: ds) (e :: es) outcome := by
  cases h with
  | all hall => exact .all (.cons he hall)
  | upTo hall hd => exact .upTo (.cons he hall) hd

end Entry

namespace Catalogue

variable {c : Catalogue}

/-! ## Names -/

theorem getElem?_foldl_insert (c : Catalogue) (es : List Entry) (name : String) :
    (es.foldl insert c).entries[name]? = (Entry.lastNamed es name).or c.entries[name]? := by
  induction es using List.reverseRecOn with
  | nil => rfl
  | append_singleton es e ih =>
    rw [List.foldl_append, List.foldl_cons, List.foldl_nil, insert, insertAs,
      Std.TreeMap.getElem?_insert, ih, Entry.lastNamed, Entry.lastNamed, List.reverse_append,
      List.reverse_singleton, List.singleton_append, List.find?_cons]
    by_cases hname : e.name = name
    · rw [if_pos (Std.LawfulEqCmp.compare_eq_iff_eq.2 hname), beq_iff_eq.2 hname]
      rfl
    · rw [if_neg (mt Std.LawfulEqCmp.compare_eq_iff_eq.1 hname), beq_eq_false_iff_ne.2 hname]

theorem mem_names {name : String} : name ∈ c.names ↔ c.entries[name]?.isSome = true := by
  rw [names, Std.TreeMap.mem_keys, Std.TreeMap.isSome_getElem?_eq_contains,
    Std.TreeMap.mem_iff_contains]

theorem names_sorted (c : Catalogue) : c.names.Pairwise (· < ·) :=
  Std.TreeMap.ordered_keys.imp compare_lt_iff_lt.1

theorem get_eq (c : Catalogue) (name : String) :
    c.get name = c.entries[name]?.elim (.error (.unknownName name)) .ok := by
  rw [get]
  cases c.entries[name]? <;> rfl

/-! ## Insertions -/

variable [Elementary Float]

theorem insertDocument_eq (c : Catalogue) (d : Document) :
    c.insertDocument d = (Entry.examine d).map c.insert := by
  rw [insertDocument, Entry.examine]
  cases hheading : Entry.Heading.ofDocument? d with
  | none => rfl
  | some heading =>
    dsimp only
    cases he : Entry.ofDocument d with
    | error cause => rfl
    | ok e =>
      rw [Except.map, Except.map, insert, Entry.name_of_heading hheading he]

theorem insertDocuments_eq (c : Catalogue) (ds : List Document) :
    (c.insertDocuments ds).2 = (Entry.admitted ds).foldl insert c ∧
      Entry.Fares ds (Entry.admitted ds) (c.insertDocuments ds).1 := by
  induction ds generalizing c with
  | nil => exact ⟨rfl, .all .nil⟩
  | cons d ds ih =>
    rw [insertDocuments, insertDocument_eq, Entry.admitted]
    cases he : Entry.examine d with
    | ok e =>
      obtain ⟨hcatalogue, hfares⟩ := ih (c.insert e)
      exact ⟨hcatalogue, hfares.cons he⟩
    | error cause => exact ⟨rfl, show Entry.Fares ([] ++ d :: ds) [] _ from .upTo .nil he⟩

end Catalogue

end Quadrature
