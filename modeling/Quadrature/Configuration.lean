import Quadrature.Catalogue.Basic
import Quadrature.Settings

/-!
# Configurations

Settings and a catalogue, and the documents that change them. Such a document
replaces the settings if it has any, then adds its entries to the catalogue; when
one of these fails the settings and the entries before it stay.
-/

namespace Quadrature

variable [Elementary Float]

structure Configuration where
  settings : Settings
  catalogue : Catalogue

namespace Configuration

def initial : Configuration :=
  ⟨.default, .builtIn⟩

/-- What a document says about a configuration. -/
structure Update where
  settings : Option Settings
  entries : List Document

namespace Update

/-- The nesting of an entry, which stands within two other containers. -/
def entryDepth : Nat :=
  Document.maxDepth - 2

def ofDocument? (d : Document) : Option Update := do
  let r ← Record.ofDocument? ["engine", "functions"] d
  return {
    settings := ← r.withDefault "engine" none (Document.toOption? Settings.ofDocument?)
    entries := ← r.withDefault "functions" [] (Document.toList? (Document.stored? entryDepth)) }

end Update

def apply (c : Configuration) (u : Update) : Except CatalogueError Unit × Configuration :=
  let (outcome, catalogue) := c.catalogue.insertDocuments u.entries
  (outcome, ⟨u.settings.getD c.settings, catalogue⟩)

/-- A text that is no such document changes nothing. -/
def applyText (c : Configuration) (text : String) : Except CatalogueError Unit × Configuration :=
  match (Document.parse? text).bind Update.ofDocument? with
  | some u => c.apply u
  | none => (.error .malformedDocument, c)

/-- Applies the content of a file; there is none if there is no file. -/
def applyFile (c : Configuration) (content : Option String) :
    Except CatalogueError Unit × Configuration :=
  match content with
  | some text => c.applyText text
  | none => (.error .missingFile, c)

end Configuration

end Quadrature
