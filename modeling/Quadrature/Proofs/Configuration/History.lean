import Quadrature.Configuration
import Quadrature.Proofs.Catalogue.Insertion

/-!
# Histories of a configuration

What a configuration is after any operations on it. An operation asks for an update, that is
settings, if any, and documents to be inserted; a text that cannot be read asks for none
(`Configuration.perform_eq`). The catalogue is therefore the built-in one with the entries
that each operation added up to its first failure, and the settings are the last that were
given.
-/

namespace Quadrature

namespace Configuration

/-! ## Texts -/

namespace Update

variable {d : Document} {u : Update}

/-- Where a document speaks of settings. -/
def engine? : Document → Option Document
  | .array ds => ds[0]?
  | d => d.member? "engine"

/-- Where a document speaks of entries. -/
def functions? : Document → Option Document
  | .array ds => ds[1]?
  | d => d.member? "functions"

theorem field?_record {r : Record} (h : Record.ofDocument? ["engine", "functions"] d = some r) :
    r.field? "engine" = engine? d ∧ r.field? "functions" = functions? d := by
  cases d with
  | object ms => exact ⟨Record.field?_object h (by decide), Record.field?_object h (by decide)⟩
  | array ds =>
    obtain ⟨rfl, -⟩ := Record.ofDocument?_array h
    match ds with
    | [] => exact ⟨rfl, rfl⟩
    | [_] => exact ⟨rfl, rfl⟩
    | _ :: _ :: _ => exact ⟨rfl, rfl⟩
  | null | bool | number | string => cases h

theorem exists_of_ofDocument? (h : ofDocument? d = some u) :
    ∃ r, Record.ofDocument? ["engine", "functions"] d = some r ∧
      r.withDefault "engine" none (Document.toOption? Settings.ofDocument?) = some u.settings ∧
      r.withDefault "functions" [] (Document.toList? (Document.stored? entryDepth)) =
        some u.entries := by
  simp only [ofDocument?, Option.bind_eq_bind, Option.bind_eq_some_iff] at h
  obtain ⟨r, hr, settings, hsettings, entries, hentries, hu⟩ := h
  cases hu
  exact ⟨r, hr, hsettings, hentries⟩

/-- A document has settings exactly when it speaks of them and they are not null. -/
theorem settings_of_ofDocument? (h : ofDocument? d = some u) :
    (u.settings = none ↔ engine? d = none ∨ engine? d = some .null) ∧
      ∀ s, u.settings = some s → ∃ d', engine? d = some d' ∧ Settings.ofDocument? d' = some s := by
  obtain ⟨r, hr, hsettings, -⟩ := exists_of_ofDocument? h
  rw [Record.withDefault, (field?_record hr).1] at hsettings
  cases hengine : engine? d with
  | none =>
    rw [hengine] at hsettings
    rw [← Option.some.inj hsettings]
    exact ⟨⟨fun _ => .inl rfl, fun _ => rfl⟩, fun s hs => by cases hs⟩
  | some d' =>
    rw [hengine] at hsettings
    dsimp only at hsettings
    unfold Document.toOption? at hsettings
    split at hsettings
    · rw [← Option.some.inj hsettings]
      exact ⟨⟨fun _ => .inr rfl, fun _ => rfl⟩, fun s hs => by cases hs⟩
    · next hnull =>
      obtain ⟨s, hs, hsome⟩ := Option.map_eq_some_iff.1 hsettings
      rw [← hsome]
      refine ⟨⟨fun hn => absurd hn (Option.some_ne_none s), ?_⟩, fun s' hs' => ?_⟩
      · rintro (hn | hn) <;> cases hn
        exact (hnull rfl).elim
      · cases hs'
        exact ⟨d', rfl, hs⟩

/-- Its entries are those it lists, in the form in which documents are kept. -/
theorem entries_of_ofDocument? (h : ofDocument? d = some u) :
    functions? d = none ∧ u.entries = [] ∨
      ∃ ds, functions? d = some (.array ds) ∧
        List.Forall₂ (fun e stored => e.stored? entryDepth = some stored) ds u.entries := by
  obtain ⟨r, hr, -, hentries⟩ := exists_of_ofDocument? h
  rw [Record.withDefault, (field?_record hr).2] at hentries
  cases hfunctions : functions? d with
  | none =>
    rw [hfunctions] at hentries
    exact .inl ⟨rfl, (Option.some.inj hentries).symm⟩
  | some d' =>
    rw [hfunctions] at hentries
    cases d' with
    | array ds => exact .inr ⟨ds, rfl, mapM_eq_some.1 hentries⟩
    | null | bool | number | string | object => cases hentries

end Update

/-! ## Operations -/

section

variable [Elementary Float]

inductive Operation where
  /-- Applies a text. -/
  | text (t : String)
  | settings (s : Settings)
  /-- Inserts one document. -/
  | document (d : Document)
  /-- Inserts documents in turn. -/
  | documents (ds : List Document)

def perform (c : Configuration) : Operation → Except CatalogueError Unit × Configuration
  | .text t => c.applyText t
  | .settings s => (.ok (), { c with settings := s })
  | .document d =>
    match c.catalogue.insertDocument d with
    | .ok catalogue => (.ok (), { c with catalogue })
    | .error cause => (.error cause, c)
  | .documents ds =>
    let (outcome, catalogue) := c.catalogue.insertDocuments ds
    (outcome, { c with catalogue })

/-- The configuration after some operations. -/
def run (c : Configuration) (ops : List Operation) : Configuration :=
  ops.foldl (fun c op => (c.perform op).2) c

namespace Operation

/-- What an operation asks for. -/
def update? : Operation → Option Update
  | text t => (Document.parse? t).bind Update.ofDocument?
  | settings s => some ⟨some s, []⟩
  | document d => some ⟨none, [d]⟩
  | documents ds => some ⟨none, ds⟩

/-- The entries that an operation adds. -/
def added (op : Operation) : List Entry :=
  op.update?.elim [] fun u => Entry.admitted u.entries

/-- The settings that an operation gives. -/
def given (op : Operation) : Option Settings :=
  op.update?.bind Update.settings

end Operation

variable {c : Configuration} {op : Operation} {ops : List Operation}

theorem apply_eq (c : Configuration) (u : Update) :
    ∃ outcome, Entry.Fares u.entries (Entry.admitted u.entries) outcome ∧
      c.apply u = (outcome, ⟨u.settings.getD c.settings,
        (Entry.admitted u.entries).foldl .insert c.catalogue⟩) := by
  obtain ⟨hcatalogue, hfares⟩ := c.catalogue.insertDocuments_eq u.entries
  exact ⟨_, hfares, by rw [← hcatalogue]; rfl⟩

theorem perform_eq (c : Configuration) (op : Operation) :
    c.perform op = op.update?.elim (.error .malformedDocument, c) c.apply := by
  cases op with
  | text t =>
    rw [perform, applyText, Operation.update?]
    cases (Document.parse? t).bind Update.ofDocument? <;> rfl
  | settings s => rfl
  | document d =>
    rw [perform, Operation.update?, Option.elim_some, apply, Catalogue.insertDocuments]
    cases c.catalogue.insertDocument d <;> rfl
  | documents ds => rfl

/-- One step: the outcome is that of the documents, of which those before the first failing
one are inserted, and settings count whether one fails or not. A text that cannot be read
changes nothing. -/
theorem perform_spec (c : Configuration) (op : Operation) :
    (op.update? = none → c.perform op = (.error .malformedDocument, c)) ∧
      ∀ u, op.update? = some u → ∃ outcome,
        Entry.Fares u.entries (Entry.admitted u.entries) outcome ∧
        c.perform op = (outcome, ⟨u.settings.getD c.settings,
          (Entry.admitted u.entries).foldl .insert c.catalogue⟩) := by
  rw [perform_eq]
  refine ⟨fun h => by rw [h]; rfl, fun u h => ?_⟩
  rw [h]
  exact apply_eq c u

theorem perform_snd (c : Configuration) (op : Operation) :
    (c.perform op).2 = ⟨op.given.getD c.settings, op.added.foldl .insert c.catalogue⟩ := by
  obtain ⟨hnone, hsome⟩ := perform_spec c op
  rw [Operation.given, Operation.added]
  cases h : op.update? with
  | none => rw [hnone h]; rfl
  | some u =>
    obtain ⟨outcome, -, hperform⟩ := hsome u h
    rw [hperform]
    rfl

/-! ## Runs -/

theorem run_eq (c : Configuration) (ops : List Operation) :
    c.run ops = ⟨(ops.filterMap Operation.given).getLast?.getD c.settings,
      (ops.flatMap Operation.added).foldl .insert c.catalogue⟩ := by
  induction ops using List.reverseRecOn with
  | nil => rfl
  | append_singleton ops op ih =>
    have hrun : c.run (ops ++ [op]) = ((c.run ops).perform op).2 := by
      rw [run, List.foldl_append]
      rfl
    rw [hrun, perform_snd, ih, List.filterMap_append, List.flatMap_append, List.foldl_append]
    cases hgiven : op.given <;> simp [hgiven]

theorem getElem?_run (ops : List Operation) (name : String) :
    (initial.run ops).catalogue.entries[name]? =
      Entry.lastNamed (Entry.builtIn ++ ops.flatMap Operation.added) name := by
  have hinitial : (initial.run ops).catalogue =
      (Entry.builtIn ++ ops.flatMap Operation.added).foldl .insert .empty := by
    rw [run_eq, List.foldl_append]
    rfl
  rw [hinitial, Catalogue.getElem?_foldl_insert, Catalogue.empty, Std.TreeMap.getElem?_emptyc,
    Option.or_none]

/-- After any operations a name is that of its last entry among the built-in ones and those
that were added, the settings are the last that were given, an entry is kept under its own
name, and names are listed in ascending order, just those that can be looked up. The next
operation adds the entries of its documents up to the first that is none, whose error it
gives; its settings count whether or not there is such a document; and a text that cannot be
read changes nothing. A text gives settings exactly when it speaks of them and they are not
null, and its documents are those it lists. -/
theorem initial_run (ops : List Operation) :
    let c := initial.run ops
    (∀ name, c.catalogue.entries[name]? =
        Entry.lastNamed (Entry.builtIn ++ ops.flatMap Operation.added) name) ∧
      c.settings = (ops.filterMap Operation.given).getLast?.getD .default ∧
      (∀ (name : String) (e : Entry), c.catalogue.entries[name]? = some e → e.name = name) ∧
      (∀ name, (∀ cause, c.catalogue.get name = .error cause ↔
          name ∉ c.catalogue.names ∧ cause = .unknownName name) ∧
        ∀ e, c.catalogue.get name = .ok e ↔ c.catalogue.entries[name]? = some e) ∧
      (∀ name, name ∈ c.catalogue.names ↔ c.catalogue.entries[name]?.isSome = true) ∧
      c.catalogue.names.Pairwise (· < ·) ∧
      (∀ op : Operation,
        (op.update? = none → c.perform op = (.error .malformedDocument, c)) ∧
          ∀ u, op.update? = some u → ∃ outcome,
            Entry.Fares u.entries (Entry.admitted u.entries) outcome ∧
            c.perform op = (outcome, ⟨u.settings.getD c.settings,
              (Entry.admitted u.entries).foldl .insert c.catalogue⟩)) ∧
      ∀ d u, Update.ofDocument? d = some u →
        (u.settings = none ↔ Update.engine? d = none ∨ Update.engine? d = some .null) ∧
          (∀ s, u.settings = some s →
            ∃ d', Update.engine? d = some d' ∧ Settings.ofDocument? d' = some s) ∧
          (Update.functions? d = none ∧ u.entries = [] ∨
            ∃ ds, Update.functions? d = some (.array ds) ∧
              List.Forall₂ (fun e stored => e.stored? Update.entryDepth = some stored) ds
                u.entries) := by
  intro c
  refine ⟨getElem?_run ops, ?_, ?_, ?_, fun name => Catalogue.mem_names,
    Catalogue.names_sorted _, perform_spec c, ?_⟩
  · exact congrArg Configuration.settings (run_eq initial ops)
  · intro name e he
    rw [getElem?_run] at he
    exact Entry.name_of_lastNamed he
  · intro name
    rw [Catalogue.get_eq, Catalogue.mem_names]
    cases c.catalogue.entries[name]? with
    | none => simp [eq_comm]
    | some e => simp
  · intro d u hu
    obtain ⟨hnone, hsome⟩ := Update.settings_of_ofDocument? hu
    exact ⟨hnone, hsome, Update.entries_of_ofDocument? hu⟩

end

/-- A text whose second entry does not compile gives its settings and its first entry, which
replaces a built-in one; the entry behind the failing one is not there. -/
theorem initial_run_failing :
    let text := "\x7b\"engine\":\x7b\"report_digits\":3\x7d,\"functions\":[" ++
      "\x7b\"name\":\"square\",\"expression\":\"1/x\"\x7d,\x7b\"name\":\"p\",\"expression\":\"1/\"\x7d," ++
      "\x7b\"name\":\"q\",\"expression\":\"x\"\x7d]\x7d"
    let c := initial.run [.text text]
    c.settings.digits = 3 ∧
      (c.catalogue.entries["square"]?.map fun e => e.formula.source) = some "1/x" ∧
      "q" ∉ c.catalogue.names := by
  intro text c
  obtain ⟨hentries, hsettings, -, -, hnames, -⟩ := initial_run [.text text]
  refine ⟨?_, ?_, ?_⟩
  · rw [hsettings]
    decide +kernel
  · rw [hentries]
    decide +kernel
  · rw [hnames, hentries]
    decide +kernel

end Configuration

end Quadrature
