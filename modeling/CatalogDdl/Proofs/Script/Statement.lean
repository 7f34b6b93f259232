import CatalogDdl.Script.Basic

/-!
# The statements of a script

The text of a script is a list of pieces: statements, comments and the lines that end a batch.
Nothing in the text lies outside these pieces, so what is said of the order of the statements is
said of the text.
-/
namespace CatalogDdl

/-- A statement, by what it says. -/
inductive Statement where
  | use (database : String)
  | dropForeignKey (key : ForeignKeyName)
  | dropTable (table : String)
  | dropRoutine (kind : Routine.Kind) (name : String)
  | createTable (table : TableDefinition)
  | addForeignKey (key : ForeignKey)
  | createIndex (index : Index)
  | createRoutine (routine : Routine)
  deriving DecidableEq, Repr

namespace Statement

def sql : Statement → String
  | use database => "USE " ++ Text.identifier database ++ ";\n"
  | dropForeignKey key => key.dropSql
  | dropTable table => dropObject "U" "TABLE" table
  | dropRoutine kind name => dropObject kind.typeCode kind.word name
  | createTable table => table.createSql ++ "\n"
  | addForeignKey key => key.sql ++ "\n"
  | createIndex index => index.sql ++ "\n"
  | createRoutine routine => routine.definition ++ "\n"

/-- The tables that have to be there before the statement adds something to them or refers to
them. -/
def needs : Statement → List String
  | addForeignKey key => [key.table, key.referencedTable]
  | createIndex index => [index.table]
  | _ => []

/-- Holds of the statements that create or add something. -/
def isCreation : Statement → Bool
  | createTable _ | addForeignKey _ | createIndex _ | createRoutine _ => true
  | use _ | dropForeignKey _ | dropTable _ | dropRoutine _ _ => false

def created? : Statement → Option TableDefinition
  | createTable table => some table
  | _ => none

end Statement

inductive Piece where
  /-- A comment or an empty line. -/
  | remark (remark : String)
  | statement (statement : Statement)
  /-- The end of a batch. -/
  | separator
  deriving DecidableEq, Repr

namespace Piece

/-- A piece as it is written where `line` ends a batch. -/
def text (line : String) : Piece → String
  | remark r => r
  | statement s => s.sql
  | separator => line ++ "\n\n"

def statement? : Piece → Option Statement
  | statement s => some s
  | remark _ | separator => none

def texts (line : String) (pieces : List Piece) : String := String.join (pieces.map (text line))

@[simp] theorem texts_nil (line : String) : texts line [] = "" := rfl

@[simp] theorem texts_cons (line : String) (piece : Piece) (rest : List Piece) :
    texts line (piece :: rest) = piece.text line ++ texts line rest := by simp [texts]

@[simp] theorem texts_append (line : String) (first second : List Piece) :
    texts line (first ++ second) = texts line first ++ texts line second := by simp [texts]

/-- Statements with nothing between them. -/
@[simp] theorem texts_statements (line : String) (statements : List Statement) :
    texts line (statements.map statement) = String.join (statements.map Statement.sql) := by
  simp [texts, Function.comp_def, text]

theorem texts_flatMap {α : Type} (line : String) (f : α → List Piece) (items : List α) :
    texts line (items.flatMap f) = String.join (items.map fun item => texts line (f item)) := by
  induction items with
  | nil => rfl
  | cons item rest ih => simp [ih]

def statements (pieces : List Piece) : List Statement := pieces.filterMap statement?

@[simp] theorem statements_nil : statements [] = [] := rfl

@[simp] theorem statements_cons (piece : Piece) (rest : List Piece) :
    statements (piece :: rest) = piece.statement?.toList ++ statements rest := by
  cases piece <;> rfl

@[simp] theorem statements_append (first second : List Piece) :
    statements (first ++ second) = statements first ++ statements second := by simp [statements]

@[simp] theorem statements_statements (ss : List Statement) :
    statements (ss.map statement) = ss := by
  induction ss with
  | nil => rfl
  | cons s rest ih => simp [ih, statement?]

theorem statements_flatMap {α : Type} (f : α → List Piece) (items : List α) :
    statements (items.flatMap f) = items.flatMap fun item => statements (f item) := by
  induction items with
  | nil => rfl
  | cons item rest ih => simp [ih]

end Piece

namespace TableDefinition

def statements (table : TableDefinition) : List Statement :=
  .createTable table :: (table.foreignKeys.map .addForeignKey ++ table.indexes.map .createIndex)

def pieces (table : TableDefinition) : List Piece :=
  .remark ("-- Table: " ++ table.name ++ "\n") :: (table.statements.map .statement
    ++ [.remark "\n"])

theorem texts_pieces (line : String) (table : TableDefinition) :
    Piece.texts line table.pieces = table.sql := by
  have hs : table.statements.map Statement.sql =
      (table.createSql ++ "\n") :: table.followers.map (· ++ "\n") := by
    simp [statements, followers, Statement.sql, Function.comp_def]
  rw [pieces, Piece.texts_cons, Piece.texts_append, Piece.texts_statements, hs, String.join_cons,
    Piece.texts_cons, Piece.texts_nil, sql]
  simp only [Piece.text, String.append_assoc, String.append_empty]

theorem statements_pieces (table : TableDefinition) :
    Piece.statements table.pieces = table.statements := by
  simp [pieces, Piece.statement?]

end TableDefinition

namespace Routine

def pieces (routine : Routine) : List Piece :=
  [.remark ("-- " ++ routine.kind.label ++ ": " ++ routine.name ++ "\n"),
    .statement (.createRoutine routine), .separator]

theorem texts_pieces (line : String) (routine : Routine) :
    Piece.texts line routine.pieces = routine.batch line := by
  rw [pieces, batch, Piece.texts_cons, Piece.texts_cons, Piece.texts_cons, Piece.texts_nil]
  simp only [Piece.text, Statement.sql, String.append_assoc, String.append_empty]

theorem statements_pieces (routine : Routine) :
    Piece.statements routine.pieces = [.createRoutine routine] := rfl

def Kind.pieces (kind : Kind) (routines : List Routine) : List Piece :=
  .remark (heading kind.title) :: routines.flatMap Routine.pieces

theorem Kind.texts_pieces (line : String) (kind : Kind) (routines : List Routine) :
    Piece.texts line (kind.pieces routines) = kind.batches line routines := by
  simp [pieces, batches, Piece.texts_flatMap, Routine.texts_pieces, Piece.text]

theorem Kind.statements_pieces (kind : Kind) (routines : List Routine) :
    Piece.statements (kind.pieces routines) = routines.map .createRoutine := by
  simp only [pieces, Piece.statements_cons, Piece.statements_flatMap, Routine.statements_pieces,
    Piece.statement?]
  simp [List.map_eq_flatMap]

end Routine

namespace Schema

def routineDropStatements (schema : Schema) (kind : Routine.Kind) : List Statement :=
  (schema.routines kind).map fun routine => .dropRoutine kind routine.name

/-- The statements that drop the tables, in reverse of the declared order. -/
def tableDropStatements (schema : Schema) : List Statement :=
  schema.tables.reverse.map fun table => .dropTable table.name

def dropStatements (schema : Schema) : List Statement :=
  schema.foreignKeys.map .dropForeignKey ++ schema.tableDropStatements
    ++ schema.routineDropStatements .procedure ++ schema.routineDropStatements .view

def dropPieces (schema : Schema) : List Piece :=
  [.remark (heading "DROP EXISTING OBJECTS"), .remark "-- Drop foreign keys first\n"]
    ++ (schema.foreignKeys.map .dropForeignKey).map .statement
    ++ .remark "\n-- Drop tables\n" :: schema.tableDropStatements.map .statement
    ++ .remark Routine.Kind.procedure.dropComment
      :: (schema.routineDropStatements .procedure).map .statement
    ++ .remark Routine.Kind.view.dropComment
      :: (schema.routineDropStatements .view).map .statement

/-- The pieces of the drops are their text. -/
theorem texts_dropPieces (line : String) (schema : Schema) :
    Piece.texts line schema.dropPieces = schema.drops := by
  have hk : (schema.foreignKeys.map .dropForeignKey).map Statement.sql =
      schema.foreignKeys.map (·.dropSql) := by
    simp [Statement.sql, Function.comp_def]
  have ht : schema.tableDropStatements.map Statement.sql =
      schema.tables.reverse.map (·.dropSql) := by
    simp [tableDropStatements, Statement.sql, Table.dropSql, Function.comp_def]
  have hr (kind : Routine.Kind) : (schema.routineDropStatements kind).map Statement.sql =
      (schema.routines kind).map (Routine.dropSql kind) := by
    simp [routineDropStatements, Statement.sql, Routine.dropSql, Function.comp_def]
  simp only [dropPieces, Piece.texts_append, Piece.texts_cons, Piece.texts_nil,
    Piece.texts_statements, Piece.text, hk, ht, hr, drops, routineDrops, String.append_assoc,
    String.append_empty]

theorem statements_dropPieces (schema : Schema) :
    Piece.statements schema.dropPieces = schema.dropStatements := by
  simp only [dropPieces, dropStatements, Piece.statements_append, Piece.statements_cons,
    Piece.statements_statements, Piece.statements_nil, Piece.statement?, Option.toList_none,
    List.nil_append,
    List.append_assoc]

end Schema

namespace Script

def usePieces (settings : Settings) : List Piece :=
  match settings.database with
  | some database => [.statement (.use database), .separator]
  | none => []

theorem texts_usePieces (settings : Settings) :
    Piece.texts settings.separator (usePieces settings) = settings.useBatch := by
  cases h : settings.database <;>
    simp [usePieces, Settings.useBatch, h, Piece.text, Statement.sql, String.append_assoc]

def pieces (script : Script) : List Piece :=
  .remark (script.settings.head script.counts.tables script.schema.procedures.length
    script.schema.views.length)
    :: usePieces script.settings ++ script.schema.dropPieces
    ++ [.remark "\n", .separator, .remark (heading "CREATE TABLES")]
    ++ script.tables.flatMap TableDefinition.pieces ++ .separator
    :: Routine.Kind.procedure.pieces script.schema.procedures
      ++ Routine.Kind.view.pieces script.schema.views

/-- The text of a script is the text of its pieces, and nothing else. -/
theorem text_eq_texts (script : Script) :
    script.text = Piece.texts script.settings.separator script.pieces := by
  simp only [text, pieces, Piece.texts_append, Piece.texts_cons, Piece.texts_nil,
    Piece.texts_flatMap, TableDefinition.texts_pieces, Routine.Kind.texts_pieces,
    Schema.texts_dropPieces, texts_usePieces,
    Piece.text, String.append_assoc, String.append_empty]

def statements (script : Script) : List Statement := Piece.statements script.pieces

/-- The statements before the first one that creates something. -/
def earlyStatements (script : Script) : List Statement :=
  Piece.statements (usePieces script.settings) ++ script.schema.dropStatements

def createStatements (script : Script) : List Statement :=
  script.tables.flatMap TableDefinition.statements

def routineStatements (script : Script) : List Statement :=
  (script.schema.procedures ++ script.schema.views).map .createRoutine

theorem statements_eq (script : Script) :
    script.statements = script.earlyStatements ++ script.createStatements
      ++ script.routineStatements := by
  simp only [statements, pieces, earlyStatements, createStatements, routineStatements,
    Piece.statements_append, Piece.statements_cons, Piece.statements_nil, Piece.statements_flatMap,
    TableDefinition.statements_pieces, Routine.Kind.statements_pieces, Schema.statements_dropPieces,
    Piece.statement?, Option.toList_none, List.nil_append, List.map_append, List.append_assoc]

theorem isCreation_of_mem_early {script : Script} {s : Statement} (h : s ∈ script.earlyStatements) :
    s.isCreation = false := by
  rcases List.mem_append.mp h with h | h
  · cases hd :
      script.settings.database <;> simp_all [usePieces, Piece.statement?, Statement.isCreation]
  · simp only [Schema.dropStatements, Schema.tableDropStatements, Schema.routineDropStatements,
      List.mem_append, List.mem_map] at h
    rcases h with ((⟨_, -, rfl⟩ | ⟨_, -, rfl⟩) | ⟨_, -, rfl⟩) | ⟨_, -, rfl⟩ <;> rfl

theorem isCreation_of_mem_create {script : Script} {s : Statement}
    (h : s ∈ script.createStatements) :
    s.isCreation = true := by
  obtain ⟨table, -, h⟩ := List.mem_flatMap.mp h
  simp only [TableDefinition.statements, List.mem_cons, List.mem_append, List.mem_map] at h
  rcases h with rfl | ⟨_, -, rfl⟩ | ⟨_, -, rfl⟩ <;> rfl

/-- What only creations have is found in the blocks of the tables and then in those of the
routines. -/
theorem filterMap_statements_of_creation {β : Type} {f : Statement → Option β} (script : Script)
    (hd : ∀ s, s.isCreation = false → f s = none) :
    script.statements.filterMap f =
      (script.tables.flatMap fun table => table.statements.filterMap f)
      ++ (script.schema.procedures ++ script.schema.views).filterMap fun routine =>
        f (.createRoutine routine) := by
  have he : script.earlyStatements.filterMap f = [] :=
    List.filterMap_eq_nil_iff.mpr fun s hs => hd s (isCreation_of_mem_early hs)
  simp only [statements_eq, createStatements, routineStatements, List.filterMap_append, he,
    List.filterMap_flatMap, List.filterMap_map, Function.comp_def, List.nil_append]

/-- The tables that the statements of a script create, in the order of its text. -/
def created (script : Script) : List TableDefinition :=
  script.statements.filterMap Statement.created?

theorem created?_statements (table : TableDefinition) :
    table.statements.filterMap Statement.created? = [table] := by
  simp [TableDefinition.statements, Statement.created?]

theorem created_eq (script : Script) : script.created = script.tables := by
  have hd : ∀ s : Statement, s.isCreation = false → s.created? = none := by
    intro s hs
    cases s <;> simp_all [Statement.isCreation, Statement.created?]
  rw [created, filterMap_statements_of_creation script hd]
  simp [created?_statements, Statement.created?]

/-- Tables are created, and foreign keys added, by the blocks of the tables and nowhere else. -/
theorem createTable_mem_statements {script : Script} {table : TableDefinition} :
    .createTable table ∈ script.statements ↔ table ∈ script.tables := by
  rw [← created_eq, created, List.mem_filterMap]
  constructor
  · intro h
    exact ⟨_, h, rfl⟩
  · rintro ⟨s, hs, hc⟩
    cases s <;> simp_all [Statement.created?]

end Script
end CatalogDdl
