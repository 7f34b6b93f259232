import CatalogDdl.Catalog.Record

/-!
# Schemas

A schema is a list of tables in declared order, each with what it owns, and the routines.
-/
namespace CatalogDdl

structure Table where
  name : String
  columns : List Column := []
  primaryKeyParts : List PrimaryKeyPart := []
  foreignKeyParts : List ForeignKeyPart := []
  indexParts : List IndexPart := []
  deriving DecidableEq, Repr, Inhabited

structure ForeignKeyName where
  table : String
  name : String
  deriving DecidableEq, Repr, Inhabited

structure Counts where
  tables : Nat
  procedures : Nat
  views : Nat
  primaryKeys : Nat
  foreignKeys : Nat
  indexes : Nat
  deriving DecidableEq, Repr, Inhabited

structure Schema where
  /-- In declared order. -/
  tables : List Table := []
  /-- Each foreign key once, in the order of the listing. -/
  foreignKeys : List ForeignKeyName := []
  procedures : List Routine := []
  views : List Routine := []
  deriving DecidableEq, Repr, Inhabited

namespace Schema

def table? (schema : Schema) (name : String) : Option Table :=
  schema.tables.find? fun table => table.name = name

/-- The routines of a kind, in the order of their listing. -/
def routines (schema : Schema) : Routine.Kind → List Routine
  | .procedure => schema.procedures
  | .view => schema.views

/-- Counts the tables that `keep` accepts, with the keys and indexes they own, and all routines.
Keys are counted by their names, and indexes by their names within each table. -/
def countsWhere (schema : Schema) (keep : Table → Bool) : Counts :=
  let kept := schema.tables.filter keep
  { tables := (kept.map (·.name)).eraseDups.length
    procedures := schema.procedures.length
    views := schema.views.length
    primaryKeys :=
      (kept.flatMap fun table => table.primaryKeyParts.map (·.constraint)).eraseDups.length
    foreignKeys := schema.foreignKeys.countP fun key => kept.any fun table => table.name = key.table
    indexes :=
      (kept.flatMap fun table => table.indexParts.map fun part =>
        (table.name, part.index)).eraseDups.length }

def counts (schema : Schema) : Counts := schema.countsWhere fun _ => true

end Schema
end CatalogDdl
