import CatalogDdl.Catalog.Basic
import CatalogDdl.Error
import CatalogDdl.Schema.Basic
import CatalogDdl.Schema.DeclaredOrder

/-!
# The schema of a catalog

A catalog has a schema unless it has a defect that concerns more than one row: two columns of a
table with one ordinal, a key or an index on a table without columns, or a key with two owners.
`defect?` finds the first of these, and `tables` takes the catalog apart by table.
-/
namespace CatalogDdl.Catalog
open DeclaredOrder

/-- The tables of a catalog are those with a column. -/
def hasTable (c : Catalog) (table : String) : Bool :=
  c.columns.any fun column => column.table = table

theorem hasTable_iff {c : Catalog} {table : String} :
    c.hasTable table = true ↔ ∃ column ∈ c.columns, column.table = table := by
  simp [hasTable]

/-- The names of the tables, each once, in ascending order. -/
def tableNames (c : Catalog) : List String := sortNames (c.columns.map (·.table))

/-- The columns of a table, in ascending order of their ordinals. -/
def columnsOf (c : Catalog) (table : String) : List Column :=
  (c.columns.filter fun column => column.table = table).mergeSort fun a b => a.ordinal ≤ b.ordinal

/-- The first number that the next one repeats. -/
def repeated? : List Int → Option Int
  | a :: b :: rest => if a = b then some a else repeated? (b :: rest)
  | _ => none

/-- The least ordinal that two columns share, in the first table by name that has one. -/
def ordinalDefect? (c : Catalog) : Option Defect :=
  c.tableNames.findSome? fun table =>
    (repeated? ((c.columnsOf table).map (·.ordinal))).map (.repeatedOrdinal table)

/-- How the owner of a part differs from that of the first part with its name. -/
def ownerConflict? {α : Type} (name table : α → String) (parts : List α) (part : α) :
    Option Conflict :=
  match parts.find? fun first => name first = name part with
  | some first =>
    if table first = table part then none else some (.owners (table first) (table part))
  | none => none

/-- The first primary key part on an unknown table, or of a key with another owner. -/
def primaryKeyDefect? (c : Catalog) : Option Defect :=
  c.primaryKeys.findSome? fun part =>
    if !c.hasTable part.table then some (.unknownTable .primaryKey part.constraint part.table)
    else (ownerConflict? (·.constraint) (·.table) c.primaryKeys part).map
      (.conflict .primaryKey part.constraint)

/-- The first foreign key part with an unknown table at either end. -/
def referenceDefect? (c : Catalog) : Option Defect :=
  c.foreignKeys.findSome? fun part =>
    if !c.hasTable part.table then some (.unknownTable .foreignKey part.constraint part.table)
    else if !c.hasTable part.referencedTable then
      some (.unknownTable .foreignKey part.constraint part.referencedTable)
    else none

/-- The first index part on an unknown table. -/
def indexDefect? (c : Catalog) : Option Defect :=
  c.indexes.findSome? fun part =>
    if !c.hasTable part.table then some (.unknownTable .index part.index part.table) else none

/-- The first part of a foreign key with another owner. -/
def foreignKeyDefect? (c : Catalog) : Option Defect :=
  c.foreignKeys.findSome? fun part =>
    (ownerConflict? (·.constraint) (·.table) c.foreignKeys part).map
      (.conflict .foreignKey part.constraint)

/-- The defect for which the catalog has no schema. -/
def defect? (c : Catalog) : Option Defect :=
  c.ordinalDefect?.or <| c.primaryKeyDefect?.or <| c.referenceDefect?.or <|
    c.indexDefect?.or c.foreignKeyDefect?

def table (c : Catalog) (name : String) : Table where
  name := name
  columns := c.columnsOf name
  primaryKeyParts := c.primaryKeys.filter fun part => part.table = name
  foreignKeyParts := c.foreignKeys.filter fun part => part.table = name
  indexParts := c.indexes.filter fun part => part.table = name

/-- The tables in declared order. -/
def tables (c : Catalog) : List Table :=
  (declaredOrder (c.columns.map (·.table)) c.foreignKeys).map c.table

/-- The foreign keys, each once, in the order of the listing. -/
def foreignKeyNames (c : Catalog) : List ForeignKeyName :=
  (c.foreignKeys.map fun part => ⟨part.table, part.constraint⟩).eraseDups

def schema (c : Catalog) : Except Defect Schema :=
  match c.defect? with
  | some defect => .error defect
  | none => .ok {
      tables := c.tables
      foreignKeys := c.foreignKeyNames
      procedures := c.procedures
      views := c.views }

end CatalogDdl.Catalog
