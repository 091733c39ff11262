import Quadrature.Catalogue.BuiltIn
import Quadrature.Json.Parser
import Std.Data.TreeMap

/-!
# Catalogues

The entries that requests may name. A catalogue grows by documents: one entry at a
time, where a failure leaves it as it was, or a list of entries, of which those
before the first failing one are kept.
-/

namespace Quadrature

variable [Elementary Float]

structure Catalogue where
  entries : Std.TreeMap String Entry

namespace Catalogue

def empty : Catalogue :=
  ⟨∅⟩

def get (c : Catalogue) (name : String) : Except CatalogueError Entry :=
  match c.entries[name]? with
  | some e => .ok e
  | none => .error (.unknownName name)

def contains (c : Catalogue) (name : String) : Bool :=
  c.entries.contains name

/-- In the order of their code points. -/
def names (c : Catalogue) : List String :=
  c.entries.keys

/-- Takes the place of what had the name before. -/
def insertAs (c : Catalogue) (name : String) (e : Entry) : Catalogue :=
  ⟨c.entries.insert name e⟩

def insert (c : Catalogue) (e : Entry) : Catalogue :=
  c.insertAs e.name e

def builtIn : Catalogue :=
  Entry.builtIn.foldl insert empty

/-- Only a document with a heading can be an entry of a catalogue, under the name that the
heading gives. -/
def insertDocument (c : Catalogue) (d : Document) : Except CatalogueError Catalogue :=
  match Entry.Heading.ofDocument? d with
  | some heading => (Entry.ofDocument d).map (c.insertAs heading.name)
  | none => .error .malformedDocument

def insertDocuments (c : Catalogue) : List Document → Except CatalogueError Unit × Catalogue
  | [] => (.ok (), c)
  | d :: ds =>
    match c.insertDocument d with
    | .ok c => c.insertDocuments ds
    | .error e => (.error e, c)

/-- Adds the entries of a file: a list of them or a single one. There is no content
if there is no file. -/
def insertFile (c : Catalogue) (content : Option String) :
    Except CatalogueError Unit × Catalogue :=
  match content with
  | none => (.error .missingFile, c)
  | some text =>
    match Document.parseStored? text with
    | none => (.error .malformedDocument, c)
    | some (.array ds) => c.insertDocuments ds
    | some d => c.insertDocuments [d]

end Catalogue

end Quadrature
