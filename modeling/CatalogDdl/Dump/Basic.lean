import CatalogDdl.Catalog.Basic
import CatalogDdl.Catalog.Decode
import CatalogDdl.Dump.Folder
import CatalogDdl.Files.Path
import CatalogDdl.Schema.Build
import CatalogDdl.Script.Basic
import CatalogDdl.Text.Encoding

/-!
# Dumps

A dump is the text of the six listings with the definitions that were fetched by themselves. It is
read from a dump folder, and a script is made of it.
-/
namespace CatalogDdl

/-- The texts of the listings, and definitions to add to them. -/
structure Dump where
  columns : String := ""
  primaryKeys : String := ""
  foreignKeys : String := ""
  indexes : String := ""
  procedures : String := ""
  views : String := ""
  definitions : List Routine := []
  deriving DecidableEq, Repr, Inhabited

namespace Dump

def readText (path : String) : Contents → Except Error String
  | .error fault => .error (.unreadable path fault)
  | .ok bytes =>
    match Text.decode bytes with
    | some text => .ok text
    | none => .error (.unreadable path .malformed)

/-- The text of a listing. Only the columns have to be there; any other listing may be left out. -/
def readListing (path : String) (folder : Folder) (listing : Listing) : Except Error String :=
  match folder.listing? listing with
  | some contents => readText (Path.join path listing.file) contents
  | none =>
    if listing = .columns then .error (.unreadable (Path.join path listing.file) (.path .notFound))
    else .ok ""

def readDefinition (path : String) (kind : Routine.Kind) (file : String × Contents) :
    Except Error Routine := do
  let text ← readText (path ++ "/" ++ file.1) file.2
  return { kind, name := routineName file.1, definition := ResultSet.body text }

/-- The definitions of a kind, in ascending order of their file names. -/
def readDefinitions (path : String) (folder : Folder) (kind : Routine.Kind) :
    Except Error (List Routine) :=
  match kind.folderPath? path with
  | none => .ok []
  | some path => do
    let files ← folder.definitions kind
    (files.mergeSort fun a b => a.1 ≤ b.1).mapM (readDefinition path kind)

def ofFolder (path : String) (folder : Folder) : Except Error Dump := do
  let columns ← readListing path folder .columns
  let primaryKeys ← readListing path folder .primaryKeys
  let foreignKeys ← readListing path folder .foreignKeys
  let indexes ← readListing path folder .indexes
  let procedures ← readListing path folder .procedures
  let views ← readListing path folder .views
  let procedureDefinitions ← readDefinitions path folder .procedure
  let viewDefinitions ← readDefinitions path folder .view
  return {
    columns, primaryKeys, foreignKeys, indexes, procedures, views
    definitions := procedureDefinitions ++ viewDefinitions }

def listing (dump : Dump) : Listing → String
  | .columns => dump.columns
  | .primaryKeys => dump.primaryKeys
  | .foreignKeys => dump.foreignKeys
  | .indexes => dump.indexes
  | .procedures => dump.procedures
  | .views => dump.views

def rows (dump : Dump) (delimiter : Char) (listing : Listing) : List Row :=
  (ResultSet.parse delimiter (dump.listing listing)).rows

def listedCatalog (dump : Dump) (delimiter : Char) : Except Error Catalog := do
  let columns ← Column.ofRows (dump.rows delimiter .columns)
  let primaryKeys ← PrimaryKeyPart.ofRows (dump.rows delimiter .primaryKeys)
  let foreignKeys ← ForeignKeyPart.ofRows (dump.rows delimiter .foreignKeys)
  let indexes ← IndexPart.ofRows (dump.rows delimiter .indexes)
  let procedures ← Routine.ofRows .procedure (dump.rows delimiter .procedures)
  let views ← Routine.ofRows .view (dump.rows delimiter .views)
  return { columns, primaryKeys, foreignKeys, indexes, procedures, views }

/-- The catalog that the listings and the definitions describe. -/
def catalog (dump : Dump) (delimiter : Char) : Except Error Catalog := do
  let listed ← dump.listedCatalog delimiter
  return listed.redefine dump.definitions

def schema (dump : Dump) (delimiter : Char) : Except Error Schema := do
  let catalog ← dump.catalog delimiter
  catalog.schema.mapError .defect

def script (dump : Dump) (settings : Settings) : Except Error Script := do
  let schema ← dump.schema settings.delimiter
  (Script.ofSchema settings schema).mapError .defect

end Dump
end CatalogDdl
