import CatalogDdl.Schema.Basic
import CatalogDdl.Schema.Key
import CatalogDdl.Script.DataType
import CatalogDdl.Text.Quoted

/-!
# Table definitions

A table definition holds what the statements of one table say. It exists only as a whole: a defect
in any part of the table leaves no definition at all.
-/
namespace CatalogDdl
open Text

/-- What an identity column starts from and grows by. -/
structure Identity where
  seed : String
  increment : String
  deriving DecidableEq, Repr, Inhabited

structure ColumnDefinition where
  name : String
  type : String
  identity : Option Identity
  isNullable : Bool
  defaultValue : Option String
  deriving DecidableEq, Repr, Inhabited

namespace Column

/-- The identity of a column. Without seed and increment it is `1` and `1`; one without the other is
a defect. -/
def identity? (table : String) (column : Column) : Except Defect (Option Identity) :=
  if !column.isIdentity then .ok none
  else if column.identitySeed = "" ∧ column.identityIncrement = "" then .ok (some ⟨"1", "1"⟩)
  else if column.identitySeed = "" ∨ column.identityIncrement = "" then
    .error (.halfIdentity table column.name)
  else .ok (some ⟨column.identitySeed, column.identityIncrement⟩)

def define (table : String) (column : Column) : Except Defect ColumnDefinition := do
  let identity ← column.identity? table
  return {
    name := column.name
    type := column.type
    identity
    isNullable := column.isNullable
    defaultValue := column.defaultValue }

end Column

def clauseIndent : String := "    "

def Identity.sql (identity : Identity) : String :=
  " IDENTITY(" ++ identity.seed ++ "," ++ identity.increment ++ ")"

/-- The clause of a column: its name, type, identity, nullability and default. -/
def ColumnDefinition.sql (column : ColumnDefinition) : String :=
  clauseIndent ++ identifier column.name ++ " " ++ column.type
    ++ (match column.identity with
      | some identity => identity.sql
      | none => "")
    ++ (if column.isNullable then " NULL" else " NOT NULL")
    ++ (match column.defaultValue with
      | some value => " DEFAULT " ++ value
      | none => "")

def PrimaryKey.sql (key : PrimaryKey) : String :=
  clauseIndent ++ "CONSTRAINT " ++ identifier key.name ++ " PRIMARY KEY CLUSTERED ("
    ++ identifierList key.columns ++ ")"

/-- The clause of an action on the given event. `NO ACTION` goes without saying. -/
def ReferentialAction.clause (event : String) (action : ReferentialAction) : String :=
  if action = .noAction then "" else " ON " ++ event ++ " " ++ action.sql

/-- The statement that adds a foreign key to its table. -/
def ForeignKey.sql (key : ForeignKey) : String :=
  "ALTER TABLE " ++ identifier key.table ++ " ADD CONSTRAINT " ++ identifier key.name
    ++ " FOREIGN KEY (" ++ identifierList key.columns ++ ") REFERENCES "
    ++ identifier key.referencedTable ++ " (" ++ identifierList key.referencedColumns ++ ")"
    ++ key.onDelete.clause "DELETE" ++ key.onUpdate.clause "UPDATE" ++ ";"

def Index.sql (index : Index) : String :=
  "CREATE " ++ (if index.isUnique then "UNIQUE " else "") ++ "NONCLUSTERED INDEX "
    ++ identifier index.name ++ " ON " ++ identifier index.table
    ++ " (" ++ identifierList index.columns ++ ")"
    ++ (if index.included.isEmpty then "" else " INCLUDE (" ++ identifierList index.included ++ ")")
    ++ ";"

/-- What the statements of one table say. -/
structure TableDefinition where
  name : String
  columns : List ColumnDefinition
  primaryKey : Option PrimaryKey
  foreignKeys : List ForeignKey
  indexes : List Index
  deriving DecidableEq, Repr, Inhabited

/-- The definition of a table. Only parts that carry the table's name count. -/
def Table.define (table : Table) : Except Defect TableDefinition := do
  let primaryKey ← PrimaryKey.ofParts table.name table.primaryKeyParts
  let foreignKeys ← ForeignKey.ofParts table.name table.foreignKeyParts
  let indexes ← Index.ofParts table.name table.indexParts
  let columns ← table.columns.mapM (Column.define table.name)
  return { name := table.name, columns, primaryKey, foreignKeys, indexes }

namespace TableDefinition

def clauses (table : TableDefinition) : List String :=
  table.columns.map (·.sql) ++ (table.primaryKey.map (·.sql)).toList

/-- The statement that creates the table with its primary key. -/
def createSql (table : TableDefinition) : String :=
  "CREATE TABLE " ++ identifier table.name ++ " (\n" ++ ",\n".intercalate table.clauses ++ "\n);"

/-- The statements that follow the creation of the table: its foreign keys and then its indexes. -/
def followers (table : TableDefinition) : List String :=
  table.foreignKeys.map (·.sql) ++ table.indexes.map (·.sql)

/-- The block of the table in a script: a comment, its statements and an empty line. -/
def sql (table : TableDefinition) : String :=
  "-- Table: " ++ table.name ++ "\n" ++ table.createSql ++ "\n"
    ++ String.join (table.followers.map (· ++ "\n")) ++ "\n"

end TableDefinition
end CatalogDdl
