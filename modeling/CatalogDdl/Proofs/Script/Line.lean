import CatalogDdl.Proofs.Script.Counts
import CatalogDdl.Proofs.Script.Quoted

/-!
# Lines of a script

Each piece of a script consists of whole lines. A line of a remark is empty or a comment, and a line
of a statement begins with no `G`, unless it is a line of a routine.
-/
namespace CatalogDdl
open Text

/-- An empty line, or one that begins with two hyphens. -/
def IsRemark (line : List Char) : Prop := line = [] ∨ ['-', '-'] <+: line

/-- The line does not begin as a separator does. -/
def NotG (line : List Char) : Prop := line.head? ≠ some 'G'

theorem IsRemark.notG {line : List Char} (h : IsRemark line) : NotG line := by
  rcases h with rfl | ⟨rest, rfl⟩
  · simp [NotG]
  · simp [NotG]

def Opens (s : String) : Prop := s.toList.head?.any (· ≠ 'G') = true

instance : DecidablePred Opens :=
  fun s => inferInstanceAs (Decidable (s.toList.head?.any (· ≠ 'G') = true))

theorem Opens.append {s : String} (h : Opens s) (t : String) : Opens (s ++ t) := by
  cases hs : s.toList with
  | nil => simp [Opens, hs] at h
  | cons c rest => simpa [Opens, hs] using h

theorem Opens.notG {s : String} (h : Opens s) : NotG s.toList := by
  cases hs : s.toList with
  | nil => simp [NotG]
  | cons c rest => simpa [Opens, NotG, hs] using h

theorem ReferentialAction.unbroken_clause {event : String} (h : Unbroken event)
    (action : ReferentialAction) :
    Unbroken (action.clause event) := by
  rw [clause]
  split
  · decide
  · simp only [unbroken_append_iff, h, and_true]
    cases action <;> decide

theorem ColumnDefinition.unbroken_sql {column : ColumnDefinition}
    (h : ∀ text ∈ column.texts, Unbroken text) :
    Unbroken column.sql := by
  simp only [texts, List.forall_mem_append, List.forall_mem_cons] at h
  obtain ⟨⟨⟨hn, ht, -⟩, hi⟩, hd⟩ := h
  have hn' : Unbroken (if column.isNullable then " NULL" else " NOT NULL") := by split <;> decide
  cases hid : column.identity <;> cases hdv : column.defaultValue <;>
    simp_all [sql, Identity.sql, clauseIndent] <;> decide +kernel

theorem ColumnDefinition.opens_sql (column : ColumnDefinition) : Opens column.sql := by
  unfold sql
  simp only [String.append_assoc]
  exact .append (by decide) _

theorem PrimaryKey.unbroken_sql {key : PrimaryKey} (h : ∀ text ∈ key.texts, Unbroken text) :
    Unbroken key.sql := by
  simp only [texts, List.forall_mem_cons] at h
  unfold sql
  simp only [unbroken_append_iff, unbroken_identifier_iff, h.1, unbroken_identifierList h.2]
  decide +kernel

theorem PrimaryKey.opens_sql (key : PrimaryKey) : Opens key.sql := by
  unfold sql
  simp only [String.append_assoc]
  exact .append (by decide) _

theorem ForeignKey.unbroken_sql {key : ForeignKey} (h : ∀ text ∈ key.texts, Unbroken text) :
    Unbroken key.sql := by
  simp only [texts, List.forall_mem_append, List.forall_mem_cons] at h
  obtain ⟨⟨⟨hn, ht, hr, -⟩, hc⟩, hrc⟩ := h
  have hd : Unbroken (key.onDelete.clause "DELETE") :=
      ReferentialAction.unbroken_clause (by decide) _
  have hu : Unbroken (key.onUpdate.clause "UPDATE") :=
      ReferentialAction.unbroken_clause (by decide) _
  unfold sql
  simp only [unbroken_append_iff, unbroken_identifier_iff, hn, ht, hr, unbroken_identifierList hc,
    unbroken_identifierList hrc, hd, hu]
  decide +kernel

theorem Index.unbroken_sql {index : Index} (h : ∀ text ∈ index.texts, Unbroken text) :
    Unbroken index.sql := by
  simp only [texts, List.forall_mem_append, List.forall_mem_cons] at h
  obtain ⟨⟨⟨hn, ht, -⟩, hc⟩, hi⟩ := h
  have hu : Unbroken (if index.isUnique then "UNIQUE " else "") := by split <;> decide
  have hin : Unbroken (if index.included.isEmpty then ""
      else " INCLUDE (" ++ identifierList index.included ++ ")") := by
    split
    · decide
    · simp only [unbroken_append_iff, unbroken_identifierList hi]
      decide
  unfold sql
  simp only [unbroken_append_iff, unbroken_identifier_iff, hn, ht, unbroken_identifierList hc, hu,
    hin]
  decide +kernel

/-- Clauses on lines of their own make no line that begins with `G`. -/
theorem lined_clauses {clauses : List String}
    (h : ∀ clause ∈ clauses, Unbroken clause ∧ Opens clause) :
    Lined NotG (",\n".intercalate clauses ++ "\n") := by
  induction clauses with
  | nil => exact .line (l := "") (by decide) (by simp [NotG])
  | cons clause rest ih =>
    rw [List.forall_mem_cons] at h
    cases rest with
    | nil =>
      rw [String.intercalate_singleton]
      exact .line h.1.1 h.1.2.notG
    | cons next rest =>
      have hc : Lined NotG (clause ++ "," ++ "\n") := by
        refine .line ?_ (h.1.2.append ",").notG
        rw [unbroken_append_iff]
        exact ⟨h.1.1, by decide⟩
      have he : ",\n".intercalate (clause :: next :: rest) ++ "\n" =
          clause ++ "," ++ "\n" ++ (",\n".intercalate (next :: rest) ++ "\n") := by
        have hs : ",\n" = "," ++ "\n" := by decide
        rw [String.intercalate_cons_cons, hs]
        simp only [String.append_assoc]
      rw [he]
      exact hc.append (ih h.2)

theorem lined_statement {front : String} (hu : Unbroken front) (ho : Opens front) :
    Lined NotG (front ++ ";\n") := by
  have he : ";\n" = ";" ++ "\n" := by decide
  rw [he, ← String.append_assoc]
  refine .line ?_ (ho.append ";").notG
  rw [unbroken_append_iff]
  exact ⟨hu, by decide⟩

theorem lined_dropObject {typeCode word name : String} (ht : Unbroken typeCode) (hw : Unbroken word)
    (hn : Unbroken name) :
    Lined NotG (dropObject typeCode word name) := by
  unfold dropObject
  refine lined_statement ?_ ?_
  · simp only [unbroken_append_iff, unbroken_literal_iff, unbroken_identifier_iff, ht, hw, hn]
    decide +kernel
  · simp only [String.append_assoc]
    exact .append (by decide) _

theorem ForeignKeyName.lined_dropSql {key : ForeignKeyName} (ht : Unbroken key.table)
    (hn : Unbroken key.name) :
    Lined NotG key.dropSql := by
  have he : key.dropSql = "IF EXISTS (SELECT * FROM sys.foreign_keys WHERE name = "
      ++ literal key.name ++ ")" ++ "\n"
      ++ ("    ALTER TABLE " ++ identifier key.table ++ " DROP CONSTRAINT " ++ identifier key.name
        ++ ";\n") := by
    have hs : ")\n    ALTER TABLE " = ")" ++ "\n" ++ "    ALTER TABLE " := by decide
    unfold dropSql
    rw [hs]
    simp only [String.append_assoc]
  rw [he]
  refine .append (.line ?_ ?_) (lined_statement ?_ ?_)
  · simp only [unbroken_append_iff, unbroken_literal_iff, hn]
    decide +kernel
  · rw [String.append_assoc]
    exact (Opens.append (by decide) _).notG
  · simp only [unbroken_append_iff, unbroken_identifier_iff, ht, hn]
    decide +kernel
  · simp only [String.append_assoc]
    exact .append (by decide) _

theorem TableDefinition.lined_createSql {table : TableDefinition}
    (h : ∀ text ∈ (Statement.createTable table).texts, Unbroken text) :
    Lined NotG (table.createSql ++ "\n") := by
  simp only [Statement.texts, List.forall_mem_cons, List.forall_mem_append,
    List.forall_mem_flatMap] at h
  obtain ⟨hn, hc, hp⟩ := h
  have hcl : ∀ clause ∈ table.clauses, Unbroken clause ∧ Opens clause := by
    simp only [clauses, List.forall_mem_append, List.forall_mem_map, Option.mem_toList]
    refine ⟨fun column hm => ⟨ColumnDefinition.unbroken_sql (hc column hm), column.opens_sql⟩,
      fun clause hk => ?_⟩
    obtain ⟨key, hkey, rfl⟩ := Option.map_eq_some_iff.mp hk
    exact ⟨PrimaryKey.unbroken_sql (hp key (by simp [hkey])), key.opens_sql⟩
  have he : table.createSql ++ "\n" = "CREATE TABLE " ++ identifier table.name ++ " (" ++ "\n"
      ++ (",\n".intercalate table.clauses ++ "\n") ++ (");" ++ "\n") := by
    have hs : " (\n" = " (" ++ "\n" := by decide
    have ht : "\n);" = "\n" ++ ");" := by decide
    unfold createSql
    rw [hs, ht]
    simp only [String.append_assoc]
  rw [he]
  refine ((Lined.line ?_ ?_).append (lined_clauses hcl)).append (.line (by decide) (by simp [NotG]))
  · simp only [unbroken_append_iff, unbroken_identifier_iff, hn]
    decide +kernel
  · rw [String.append_assoc]
    exact (Opens.append (by decide) _).notG

/-- No line of a statement begins as a separator does, unless it creates a routine. -/
theorem Statement.lined {s : Statement} (h : ∀ text ∈ s.texts, Unbroken text)
    (hr : ∀ routine, s ≠ createRoutine routine) : Lined NotG s.sql := by
  cases s with
  | use database =>
    refine lined_statement ?_ (.append (by decide) _)
    simpa [texts] using ⟨by decide, h _ (by simp [texts])⟩
  | dropForeignKey key =>
    simp only [texts, List.forall_mem_cons] at h
    exact ForeignKeyName.lined_dropSql h.1 h.2.1
  | dropTable table => exact lined_dropObject (by decide) (by decide) (h table (by simp [texts]))
  | dropRoutine kind name =>
    exact lined_dropObject (by cases kind <;> decide) (by cases kind <;> decide)
      (h name (by simp [texts]))
  | createTable table => exact TableDefinition.lined_createSql h
  | addForeignKey key =>
    refine .line (ForeignKey.unbroken_sql h) (Opens.notG ?_)
    unfold ForeignKey.sql
    simp only [String.append_assoc]
    exact .append (by decide) _
  | createIndex index =>
    refine .line (Index.unbroken_sql h) (Opens.notG ?_)
    unfold Index.sql
    simp only [String.append_assoc]
    exact .append (by decide) _
  | createRoutine routine => exact absurd rfl (hr routine)

theorem lined_comment {opening text : String} (hp : ['-', '-'] <+: opening.toList)
    (ho : Unbroken opening) (ht : Unbroken text) : Lined IsRemark (opening ++ text ++ "\n") := by
  refine .line (unbroken_append_iff.mpr ⟨ho, ht⟩) (.inr ?_)
  rw [String.toList_append]
  exact hp.trans (List.prefix_append _ _)

theorem lined_blank : Lined IsRemark "\n" := .line (l := "") (by decide) (.inl rfl)

theorem lined_ruler : Lined IsRemark (ruler ++ "\n") := .line (by decide) (.inr (by decide))

/-- A heading is made of comments and an empty line. -/
theorem lined_heading {title : String} (h : Unbroken title) : Lined IsRemark (heading title) := by
  have he :
      heading title = ruler ++ "\n" ++ ("-- " ++ title ++ "\n") ++ (ruler ++ "\n") ++ "\n" := by
    have hs : "\n-- " = "\n" ++ "-- " := by decide
    have ht : "\n\n" = "\n" ++ "\n" := by decide
    unfold heading
    rw [hs, ht]
    simp only [String.append_assoc]
  rw [he]
  exact ((lined_ruler.append (lined_comment (by decide) (by decide) h)).append lined_ruler).append
    lined_blank

theorem Timestamp.unbroken_padded (width n : Nat) : Unbroken (padded width n) := by
  rw [Unbroken, padded, String.toList_ofList, List.leftpad]
  intro hm
  rcases List.mem_append.mp hm with hm | hm
  · exact absurd (List.eq_of_mem_replicate hm) (by decide)
  · exact absurd (Nat.isDigit_of_mem_toDigits (by omega) (by omega) hm) (by decide)

theorem Timestamp.unbroken_text (time : Timestamp) : Unbroken time.text := by
  have hy : Unbroken (yearText time.year) := by
    unfold yearText
    split
    · rw [unbroken_append_iff]
      exact ⟨by decide, unbroken_padded _ _⟩
    · split
      · rw [unbroken_append_iff]
        exact ⟨by decide, unbroken_padded _ _⟩
      · exact unbroken_padded _ _
  unfold text
  simp only [unbroken_append_iff, unbroken_padded, hy]
  decide

theorem Counts.lined_line (counts : Counts) : Lined IsRemark counts.line := by
  have ht :
      Unbroken (toString counts.tables ++ " | Stored Procedures: " ++ toString counts.procedures
      ++ " | Views: " ++ toString counts.views) := by
    simp only [unbroken_append_iff, unbroken_toString_nat]
    decide +kernel
  have h := lined_comment (by decide : ['-', '-'] <+: "-- Tables: ".toList) (by decide) ht
  unfold line
  simpa only [String.append_assoc] using h

/-- The texts that the head of a script shows have no line feed. -/
structure Settings.OneLine (settings : Settings) : Prop where
  title : Unbroken settings.title
  server : ∀ server ∈ settings.server, Unbroken server
  database : ∀ database ∈ settings.database, Unbroken database

namespace Settings

variable {settings : Settings}

theorem OneLine.lined_topLines (h : settings.OneLine) : Lined IsRemark settings.topLines := by
  have hs : "\n-- " = "\n" ++ "-- " := by decide
  have ht :=
      lined_ruler.append (lined_comment (by decide : ['-', '-'] <+: "-- ".toList)
        (by decide) h.title)
  unfold topLines
  rw [hs]
  cases settings.madeAt with
  | none => simpa only [String.append_assoc, String.append_empty] using ht
  | some time =>
    have hg : Lined IsRemark ("-- Generated: " ++ time.text ++ "\n") :=
      lined_comment (by decide) (by decide) time.unbroken_text
    simpa only [String.append_assoc] using ht.append hg

theorem OneLine.lined_place (h : settings.OneLine) : Lined IsRemark settings.place := by
  have hs : ∀ server ∈ settings.server, Lined IsRemark ("-- Server: " ++ server ++ "\n") :=
    fun server hm => lined_comment (by decide) (by decide) (h.server server hm)
  have hd : ∀ database ∈ settings.database, Lined IsRemark ("-- Database: " ++ database ++ "\n") :=
    fun database hm => lined_comment (by decide) (by decide) (h.database database hm)
  unfold place
  split
  · exact .empty
  · rw [String.append_assoc]
    refine Lined.append (Lined.append ?_ ?_) lined_ruler
    · cases hv : settings.server with
      | none => exact .empty
      | some server => exact hs server hv
    · cases hv : settings.database with
      | none => exact .empty
      | some database => exact hd database hv

theorem OneLine.lined_head (h : settings.OneLine) (counts : Counts) :
    Lined IsRemark (settings.head counts.tables counts.procedures counts.views) := by
  rw [head_eq]
  refine (h.lined_topLines.append counts.lined_line).append
    ((lined_ruler.append h.lined_place).append lined_blank)

end Settings

theorem Routine.lined_comment {routine : Routine} (h : Unbroken routine.name) :
    Lined IsRemark ("-- " ++ routine.kind.label ++ ": " ++ routine.name ++ "\n") := by
  have ht : Unbroken (routine.kind.label ++ ": " ++ routine.name) := by
    simp only [unbroken_append_iff, h, and_true]
    cases routine.kind <;> decide +kernel
  have hl := CatalogDdl.lined_comment (by decide : ['-', '-'] <+: "-- ".toList) (by decide) ht
  simpa only [String.append_assoc] using hl

theorem Routine.Kind.lined_dropComment (kind : Kind) : Lined IsRemark kind.dropComment := by
  cases kind with
  | procedure =>
    have he :
        "\n-- Drop stored procedures\n" =
          "\n" ++ ("-- " ++ "Drop stored procedures" ++ "\n") := by decide
    rw [dropComment, he]
    exact lined_blank.append (CatalogDdl.lined_comment (by decide) (by decide) (by decide))
  | view =>
    have he : "\n-- Drop views\n" = "\n" ++ ("-- " ++ "Drop views" ++ "\n") := by decide
    rw [dropComment, he]
    exact lined_blank.append (CatalogDdl.lined_comment (by decide) (by decide) (by decide))

/-- A remark whose lines are empty or comments, or any other piece. -/
def Piece.Remarks : Piece → Prop
  | remark r => Lined IsRemark r
  | statement _ | separator => True

theorem Piece.remarks_statements (statements : List Statement) :
    ∀ p ∈ statements.map Piece.statement, p.Remarks :=
  List.forall_mem_map.mpr fun _ _ => trivial

/-- The remarks among the drops are comments and empty lines. -/
theorem Schema.remarks_dropPieces (schema : Schema) : ∀ p ∈ schema.dropPieces, p.Remarks := by
  have hk : Lined IsRemark ("-- " ++ "Drop foreign keys first" ++ "\n") :=
    lined_comment (by decide) (by decide) (by decide +kernel)
  have ht : Lined IsRemark ("\n" ++ ("-- " ++ "Drop tables" ++ "\n")) :=
    lined_blank.append (lined_comment (by decide) (by decide) (by decide))
  simp only [dropPieces, List.forall_mem_append, List.forall_mem_cons, List.not_mem_nil,
    false_imp_iff, implies_true, and_true]
  exact ⟨⟨⟨⟨⟨lined_heading (by decide), hk⟩, Piece.remarks_statements _⟩, ht,
    Piece.remarks_statements _⟩, Routine.Kind.lined_dropComment _, Piece.remarks_statements _⟩,
    Routine.Kind.lined_dropComment _,
    Piece.remarks_statements _⟩

theorem TableDefinition.remarks_pieces {table : TableDefinition} (h : Unbroken table.name) :
    ∀ p ∈ table.pieces, p.Remarks := by
  simp only [pieces, List.forall_mem_append, List.forall_mem_cons, List.not_mem_nil,
    false_imp_iff, implies_true, and_true]
  exact ⟨lined_comment (by decide) (by decide) h, Piece.remarks_statements _, lined_blank⟩

theorem Routine.Kind.remarks_pieces (kind : Kind) {routines : List Routine}
    (h : ∀ routine ∈ routines, Unbroken routine.name) :
    ∀ p ∈ kind.pieces routines, p.Remarks := by
  simp only [pieces, Routine.pieces, List.forall_mem_cons, List.forall_mem_flatMap,
    List.not_mem_nil, false_imp_iff, implies_true, and_true]
  refine ⟨lined_heading (by cases kind <;> decide),
    fun routine hm => ⟨Routine.lined_comment (h routine hm), ?_⟩⟩
  exact ⟨trivial, trivial⟩

namespace Script

variable {script : Script}

theorem unbroken_table (hs : ∀ s ∈ script.statements, ∀ text ∈ s.texts, Unbroken text) :
    ∀ table ∈ script.tables, Unbroken table.name :=
  fun _ ht => hs _ (createTable_mem_statements.mpr ht) _ List.mem_cons_self

theorem unbroken_routine (hs : ∀ s ∈ script.statements, ∀ text ∈ s.texts, Unbroken text) :
    ∀ routine ∈ script.schema.procedures ++ script.schema.views, Unbroken routine.name := by
  intro routine hr
  refine hs (.createRoutine routine) ?_ _ (List.mem_singleton.mpr rfl)
  rw [statements_eq]
  exact List.mem_append_right _ (List.mem_map_of_mem hr)

/-- The lines of a remark in a script are empty or comments. -/
theorem remarks_pieces (hset : script.settings.OneLine)
    (hs : ∀ s ∈ script.statements, ∀ text ∈ s.texts, Unbroken text) :
    ∀ p ∈ script.pieces, p.Remarks := by
  have hu : ∀ p ∈ usePieces script.settings, p.Remarks := by
    cases hd : script.settings.database <;> simp [usePieces, hd, Piece.Remarks]
  have hr := List.forall_mem_append.mp (unbroken_routine hs)
  simp only [pieces, List.forall_mem_append, List.forall_mem_cons, List.forall_mem_flatMap,
    List.not_mem_nil, false_imp_iff, implies_true, and_true]
  exact ⟨⟨⟨⟨⟨⟨hset.lined_head script.counts, hu⟩, script.schema.remarks_dropPieces⟩,
    lined_blank, trivial, lined_heading (by decide)⟩, fun table ht =>
      TableDefinition.remarks_pieces (unbroken_table hs table ht)⟩,
    trivial, Routine.Kind.remarks_pieces _ hr.1⟩, Routine.Kind.remarks_pieces _ hr.2⟩

end Script
end CatalogDdl
