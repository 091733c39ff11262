import Quadrature.Configuration
import Quadrature.Engine.Subject
import Quadrature.Proofs.Expression.Evaluation
import Quadrature.Proofs.Rule.Numbers

/-!
# Configurations and their catalogues

A configuration arises from the initial one by new settings and by documents. The formulas in
its catalogue have been read from texts, so their numbers are finite, and a request gets an
integrand with finite values.
-/

namespace Quadrature

namespace Catalogue

variable {c c' : Catalogue} {e : Entry} {d : Document} {ds : List Document}

/-- The numbers in the formulas are finite. -/
def IsFinite (c : Catalogue) : Prop :=
  ∀ (name : String) (e : Entry), c.entries[name]? = some e → e.formula.body.Finite

theorem IsFinite.insertAs (hc : c.IsFinite) (name : String) (he : e.formula.body.Finite) :
    (c.insertAs name e).IsFinite := by
  intro name' e' h
  rw [Catalogue.insertAs, Std.TreeMap.getElem?_insert] at h
  split at h
  · cases h
    exact he
  · exact hc name' e' h

theorem IsFinite.foldl_insert {es : List Entry} (hc : c.IsFinite)
    (hes : ∀ e ∈ es, e.formula.body.Finite) : (es.foldl Catalogue.insert c).IsFinite := by
  induction es generalizing c with
  | nil => exact hc
  | cons e es ih =>
    obtain ⟨he, hes⟩ := List.forall_mem_cons.1 hes
    exact ih (hc.insertAs e.name he) hes

theorem isFinite_builtIn : builtIn.IsFinite := by
  refine IsFinite.foldl_insert (fun name e h => ?_) fun e he => ?_
  · rw [empty, Std.TreeMap.getElem?_emptyc] at h
    cases h
  · have hmem : e.formula ∈ Entry.builtIn.flatMap fun e => e.formula :: e.antiderivative.toList :=
      List.mem_flatMap.2 ⟨e, he, List.mem_cons_self⟩
    have hspells := Entry.spells_builtIn e.formula hmem
    cases h : Expression.ofFolded (Text.foldChars e.formula.source.toList) with
    | error cause => rw [h] at hspells; cases hspells
    | ok t =>
      rw [h] at hspells
      obtain rfl := Option.some.inj hspells
      exact (canonical_of_ofFolded h).finite

variable [Elementary Float]

theorem finite_of_compile {source : String} {f : Formula}
    (h : Formula.compile source = .ok f) : f.body.Finite :=
  (canonical_of_ofFolded (ofFolded_of_compileAt h)).finite

theorem IsFinite.insertDocument (hc : c.IsFinite) (h : c.insertDocument d = .ok c') :
    c'.IsFinite := by
  unfold Catalogue.insertDocument at h
  split at h
  · cases he : Entry.ofDocument d with
    | error cause => rw [he] at h; cases h
    | ok e =>
      rw [he] at h
      cases h
      refine hc.insertAs _ ?_
      unfold Entry.ofDocument at he
      split at he
      · obtain ⟨f, hf, he⟩ := bind_eq_ok.1 he
        obtain ⟨antiderivative, -, he⟩ := bind_eq_ok.1 he
        cases he
        exact finite_of_compile (mapError_eq_ok.1 hf)
      · cases he
  · cases h

/-- Entries that are added stay when a later one fails. -/
theorem IsFinite.insertDocuments (hc : c.IsFinite) : (c.insertDocuments ds).2.IsFinite := by
  induction ds generalizing c with
  | nil => exact hc
  | cons d ds ih =>
    rw [Catalogue.insertDocuments]
    split
    · next h => exact ih (hc.insertDocument h)
    · exact hc

theorem IsFinite.integrand (hc : c.IsFinite) {source : FunctionSource} {subject : Subject}
    (h : Subject.ofSource c source = .ok subject) : subject.evaluate.IsFinite := by
  cases source with
  | expression text =>
    rw [Subject.ofSource] at h
    cases hf : Formula.compile text with
    | error cause => rw [hf] at h; cases h
    | ok f =>
      rw [hf] at h
      cases h
      exact fun x y => Expression.evaluate_finite (finite_of_compile hf)
  | predefined name =>
    rw [Subject.ofSource, Catalogue.get] at h
    cases he : c.entries[name]? with
    | none => rw [he] at h; cases h
    | some e =>
      rw [he] at h
      cases h
      exact fun x y => Expression.evaluate_finite (hc name e he)

end Catalogue

/-- The configurations that arise from the initial one. -/
inductive Configuration.Arises [Elementary Float] : Configuration → Prop
  | initial : Arises .initial
  | settings {c : Configuration} (h : Arises c) (s : Settings) : Arises { c with settings := s }
  | documents {c : Configuration} (h : Arises c) (ds : List Document) :
      Arises { c with catalogue := (c.catalogue.insertDocuments ds).2 }

namespace Configuration

variable [Elementary Float] {c : Configuration}

theorem Arises.isFinite (h : Arises c) : c.catalogue.IsFinite := by
  induction h with
  | initial => exact Catalogue.isFinite_builtIn
  | settings _ _ ih => exact ih
  | documents _ _ ih => exact ih.insertDocuments

/-- Whatever a document says of a configuration, what comes of it arises. -/
theorem Arises.apply (h : Arises c) (u : Update) : Arises (c.apply u).2 := by
  cases hs : u.settings with
  | none =>
    have happly : (c.apply u).2 = ⟨c.settings, (c.catalogue.insertDocuments u.entries).2⟩ := by
      rw [Configuration.apply, hs]
      rfl
    exact happly ▸ h.documents u.entries
  | some s =>
    have happly : (c.apply u).2 = ⟨s, (c.catalogue.insertDocuments u.entries).2⟩ := by
      rw [Configuration.apply, hs]
      rfl
    exact happly ▸ (h.documents u.entries).settings s

end Configuration

end Quadrature
