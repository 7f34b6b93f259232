import CatalogDdl.Catalog.Record
import CatalogDdl.Error
import CatalogDdl.Schema.Group
import CatalogDdl.Text.Letters

/-!
# Keys and indexes of a table

The parts that a table owns are put together into its primary key, its foreign keys and its indexes.
Parts that contradict each other are a defect; a key is never shortened to make them fit.
-/
namespace CatalogDdl
open Text

/-- The primary key of a table, its columns in key order. -/
structure PrimaryKey where
  name : String
  columns : List String
  deriving DecidableEq, Repr, Inhabited

/-- The primary key of a table, if the parts have one. Its columns are sorted by position, and those
of equal position stay in the order of the parts. -/
def PrimaryKey.ofParts (table : String) (parts : List PrimaryKeyPart) :
    Except Defect (Option PrimaryKey) :=
  match parts.filter fun part => part.table = table with
  | [] => .ok none
  | first :: rest =>
    match rest.find? fun part => part.constraint ≠ first.constraint with
    | some other => .error (.secondPrimaryKey table first.constraint other.constraint)
    | none =>
      let sorted := (first :: rest).mergeSort fun a b => a.position ≤ b.position
      .ok (some ⟨first.constraint, sorted.map (·.column)⟩)

/-- A foreign key. Its columns and the referenced ones are paired by their places. -/
structure ForeignKey where
  name : String
  table : String
  columns : List String
  referencedTable : String
  referencedColumns : List String
  onDelete : ReferentialAction
  onUpdate : ReferentialAction
  deriving DecidableEq, Repr, Inhabited

namespace ForeignKeyPart

/-- How a part disagrees with the first part of its key. -/
def conflict? (first part : ForeignKeyPart) : Option Conflict :=
  if part.referencedTable ≠ first.referencedTable then
    some (.referencedTables first.referencedTable part.referencedTable)
  else if part.onDelete ≠ first.onDelete ∨ part.onUpdate ≠ first.onUpdate then some .actions
  else none

/-- Both columns of the pair are named. -/
def isWhole (part : ForeignKeyPart) : Bool :=
  !isAbsent part.column && !isAbsent part.referencedColumn

end ForeignKeyPart

namespace ForeignKey

/-- What keeps the parts of one name from being a foreign key. -/
def defect? (parts : NameGroup ForeignKeyPart) : Option Defect :=
  let name := parts.first.constraint
  let columns := parts.items.countP fun part => !isAbsent part.column
  let referenced := parts.items.countP fun part => !isAbsent part.referencedColumn
  match parts.rest.findSome? parts.first.conflict? with
  | some how => some (.conflict .foreignKey name how)
  | none =>
    if columns ≠ referenced ∨ columns = 0 then some (.unevenForeignKey name columns referenced)
    else match parts.items.findIdx? fun part => !part.isWhole with
      | some i => some (.conflict .foreignKey name (.halfPair (i + 1)))
      | none => none

def ofGroup (parts : NameGroup ForeignKeyPart) : Except Defect ForeignKey :=
  match defect? parts with
  | some defect => .error defect
  | none => .ok {
      name := parts.first.constraint
      table := parts.first.table
      columns := parts.items.map (·.column)
      referencedTable := parts.first.referencedTable
      referencedColumns := parts.items.map (·.referencedColumn)
      onDelete := parts.first.onDelete
      onUpdate := parts.first.onUpdate }

/-- The foreign keys of a table, in the order in which their names first occur. -/
def ofParts (table : String) (parts : List ForeignKeyPart) : Except Defect (List ForeignKey) :=
  (groupsBy (·.constraint) (parts.filter fun part => part.table = table)).mapM ofGroup

end ForeignKey

/-- An index other than the primary key: its key columns, and columns it only includes. -/
structure Index where
  name : String
  table : String
  isUnique : Bool
  columns : List String
  included : List String
  deriving DecidableEq, Repr, Inhabited

namespace Index

/-- The key columns of an index, sorted by position, and the included ones. If no part has a
position, all of them are key columns. -/
def split (parts : List IndexPart) : List String × List String :=
  if parts.all fun part => part.position = 0 then (parts.map (·.column), [])
  else
    let keys := (parts.filter fun part => part.position ≠ 0).mergeSort fun a b =>
        a.position ≤ b.position
    (keys.map (·.column), (parts.filter fun part => part.position = 0).map (·.column))

def ofGroup (parts : NameGroup IndexPart) : Except Defect Index :=
  if parts.rest.any fun part => part.isUnique ≠ parts.first.isUnique then
    .error (.conflict .index parts.first.index .uniqueness)
  else
    .ok {
      name := parts.first.index
      table := parts.first.table
      isUnique := parts.first.isUnique
      columns := (split parts.items).1
      included := (split parts.items).2 }

/-- The indexes of a table, in the order in which their names first occur. -/
def ofParts (table : String) (parts : List IndexPart) : Except Defect (List Index) :=
  (groupsBy (·.index) (parts.filter fun part => part.table = table)).mapM ofGroup

end Index
end CatalogDdl
