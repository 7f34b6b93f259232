import CatalogDdl.Script.Skip
import CatalogDdl.Script.Timestamp

/-!
# Scripts

A script first drops what the schema holds and then creates it: the foreign keys are dropped before
the tables, the tables in reverse of the declared order, and the tables are created in declared
order. The routines follow. A batch separator stands after the drops, after the tables and after
each routine.
-/
namespace CatalogDdl
open Text

/-- What to do about a table that has a defect. -/
inductive DefectPolicy where
  | refuse
  | skip
  deriving DecidableEq, Repr, Inhabited

structure Settings where
  /-- Between the fields of a listing. -/
  delimiter : Char := '|'
  /-- The line that ends a batch. -/
  separator : String := "GO"
  title : String := "Database Schema"
  /-- The database that the script uses. -/
  database : Option String := none
  /-- The server that the head of the script names. -/
  server : Option String := none
  /-- When the script was made. -/
  madeAt : Option Timestamp := none
  onDefect : DefectPolicy := .refuse
  deriving DecidableEq, Repr, Inhabited

def Settings.usual : Settings := {}

/-- A script as data. Its text follows from it. -/
structure Script where
  settings : Settings
  schema : Schema
  /-- The tables that the script creates. -/
  tables : List TableDefinition
  /-- The tables that it leaves out. -/
  skipped : List Skip
  deriving DecidableEq, Repr

def ruler : String := "-- ============================================"

/-- A heading between rulers, and an empty line. -/
def heading (title : String) : String := ruler ++ "\n-- " ++ title ++ "\n" ++ ruler ++ "\n\n"

def ForeignKeyName.dropSql (key : ForeignKeyName) : String :=
  "IF EXISTS (SELECT * FROM sys.foreign_keys WHERE name = " ++ literal key.name
    ++ ")\n    ALTER TABLE "
    ++ identifier key.table ++ " DROP CONSTRAINT " ++ identifier key.name ++ ";\n"

def dropObject (typeCode word name : String) : String :=
  "IF OBJECT_ID(" ++ literal (identifier name) ++ ", '" ++ typeCode ++ "') IS NOT NULL DROP "
    ++ word ++ " " ++ identifier name ++ ";\n"

def Table.dropSql (table : Table) : String := dropObject "U" "TABLE" table.name

namespace Routine

def dropSql (kind : Kind) (routine : Routine) : String :=
  dropObject kind.typeCode kind.word routine.name

/-- The batch of a routine: a comment, its definition word for word, and the separator. -/
def batch (separator : String) (routine : Routine) : String :=
  "-- " ++ routine.kind.label ++ ": " ++ routine.name ++ "\n" ++ routine.definition ++ "\n"
    ++ separator ++ "\n\n"

def Kind.title : Kind → String
  | .procedure => "CREATE STORED PROCEDURES"
  | .view => "CREATE VIEWS"

def Kind.dropComment : Kind → String
  | .procedure => "\n-- Drop stored procedures\n"
  | .view => "\n-- Drop views\n"

def Kind.batches (kind : Kind) (separator : String) (routines : List Routine) : String :=
  heading kind.title ++ String.join (routines.map (·.batch separator))

end Routine

namespace Settings

/-- The lines that name the server and the database, closed by a ruler if there are any. -/
def place (settings : Settings) : String :=
  if settings.server.isNone && settings.database.isNone then ""
  else
    (match settings.server with
      | some server => "-- Server: " ++ server ++ "\n"
      | none => "")
    ++ (match settings.database with
      | some database => "-- Database: " ++ database ++ "\n"
      | none => "")
    ++ ruler ++ "\n"

/-- The comment at the top of a script, with the number of its tables. -/
def head (settings : Settings) (tables procedures views : Nat) : String :=
  ruler ++ "\n-- " ++ settings.title ++ "\n"
    ++ (match settings.madeAt with
      | some time => "-- Generated: " ++ time.text ++ "\n"
      | none => "")
    ++ "-- Tables: " ++ toString tables ++ " | Stored Procedures: " ++ toString procedures
    ++ " | Views: " ++ toString views ++ "\n" ++ ruler ++ "\n" ++ settings.place ++ "\n"

def useBatch (settings : Settings) : String :=
  match settings.database with
  | some database => "USE " ++ identifier database ++ ";\n" ++ settings.separator ++ "\n\n"
  | none => ""

end Settings

namespace Schema

def routineDrops (schema : Schema) (kind : Routine.Kind) : String :=
  kind.dropComment ++ String.join ((schema.routines kind).map (Routine.dropSql kind))

def drops (schema : Schema) : String :=
  heading "DROP EXISTING OBJECTS"
    ++ "-- Drop foreign keys first\n" ++ String.join (schema.foreignKeys.map (·.dropSql))
    ++ "\n-- Drop tables\n" ++ String.join (schema.tables.reverse.map (·.dropSql))
    ++ schema.routineDrops .procedure ++ schema.routineDrops .view

/-- A script of the routines of one kind alone, sorted by name. -/
def routineScript (schema : Schema) (kind : Routine.Kind) (settings : Settings) : String :=
  kind.batches settings.separator ((schema.routines kind).mergeSort fun a b => a.name ≤ b.name)

end Schema

namespace Script

/-- The script that leaves out every table with a defect and every table that depends on it. -/
def leavingOut (settings : Settings) (schema : Schema) : Script where
  settings := settings
  schema := schema
  tables := (Skip.select schema.tables).kept.map (·.definition)
  skipped := (Skip.select schema.tables).left

/-- The script of a schema. Unless they are skipped, the first table with a defect refuses it. -/
def ofSchema (settings : Settings) (schema : Schema) : Except Defect Script :=
  match settings.onDefect with
  | .skip => .ok (leavingOut settings schema)
  | .refuse => do
    let tables ← schema.tables.mapM Table.define
    return { settings, schema, tables, skipped := [] }

def counts (script : Script) : Counts :=
  script.schema.countsWhere fun table => script.tables.any fun created => created.name = table.name

def text (script : Script) : String :=
  script.settings.head script.counts.tables script.schema.procedures.length
    script.schema.views.length
    ++ script.settings.useBatch
    ++ script.schema.drops ++ "\n" ++ script.settings.separator ++ "\n\n"
    ++ heading "CREATE TABLES" ++ String.join (script.tables.map (·.sql))
    ++ script.settings.separator ++ "\n\n"
    ++ Routine.Kind.procedure.batches script.settings.separator script.schema.procedures
    ++ Routine.Kind.view.batches script.settings.separator script.schema.views

end Script
end CatalogDdl
