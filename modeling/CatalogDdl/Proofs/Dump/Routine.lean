import CatalogDdl.Proofs.Dump.Listed
import CatalogDdl.Proofs.ResultSet.Body
import CatalogDdl.Proofs.Schema.Consistent
import CatalogDdl.Proofs.Script.Created

/-!
# Definitions in a script

A definition that was fetched by itself is written to the script in the batch of its routine. It is
the text that was printed if and only if no carriage return stands before a line feed in it.
-/
namespace CatalogDdl
open Text ResultSet

/-- The pieces of a routine stand in its script one behind the other. -/
theorem Script.pieces_infix (script : Script) {kind : Routine.Kind} {routine : Routine}
    (h : routine ∈ script.schema.routines kind) : routine.pieces <:+: script.pieces := by
  have hk : routine.pieces <:+: kind.pieces (script.schema.routines kind) := by
    obtain ⟨before, after, hr⟩ := List.append_of_mem h
    refine ⟨.remark (heading kind.title) :: before.flatMap Routine.pieces,
      after.flatMap Routine.pieces, ?_⟩
    simp [Routine.Kind.pieces, hr]
  refine hk.trans ?_
  rw [pieces]
  cases kind with
  | procedure =>
    exact ((List.suffix_cons .separator _).trans (List.suffix_append _ _)).isInfix.trans
      (List.prefix_append _ _).isInfix
  | view => exact (List.suffix_append _ _).isInfix

/-- Each routine of its schema has its batch in a script. -/
theorem Script.exists_batch (script : Script) {kind : Routine.Kind} {routine : Routine}
    (h : routine ∈ script.schema.routines kind) :
    ∃ early late, script.text = early ++ routine.batch script.settings.separator ++ late := by
  obtain ⟨before, after, hp⟩ := script.pieces_infix h
  refine ⟨Piece.texts script.settings.separator before, Piece.texts script.settings.separator after,
    ?_⟩
  rw [text_eq_texts, ← hp, Piece.texts_append, Piece.texts_append, Routine.texts_pieces]

namespace Dump

variable {dump : Dump} {settings : Settings} {script : Script}

/-- The script of a dump has the last definition of each routine. -/
theorem exists_batch_of_last_definition (h : dump.script settings = .ok script)
    {earlier later : List Routine} {new : Routine} (hd : dump.definitions = earlier ++ new :: later)
    (hl : ∀ other ∈ later, other.kind = new.kind → other.name ≠ new.name) :
    ∃ early late, script.text = early ++ new.batch settings.separator ++ late := by
  obtain ⟨schema, hs, hw⟩ := script_eq_ok h
  obtain ⟨c, hc, hs⟩ := schema_eq_ok hs
  obtain ⟨listed, hlc, rfl⟩ := catalog_eq_ok hc
  obtain ⟨hset, hsch⟩ := Script.settings_and_schema hw
  have hm := Catalog.mem_of_last_definition (listedByKind hlc) earlier hl
  rw [← hd] at hm
  rw [← Catalog.routines_of_schema hs, ← hsch] at hm
  exact hset ▸ script.exists_batch hm

/-- A body without blanks at its ends and without a row count is read back from what is printed
around it, but for its line endings. So it is read as it was printed if and only if no carriage
return stands before a line feed in it. In a script it stands, as it was read, between the comment
of its routine and the end of the batch. -/
theorem printed_definition (around : Surround) {b : List Char} (hb : Trimmed b)
    (hn : ∀ piece ∈ b.splitOn '\n', isRowCount piece = false) :
    body (around.print b) = String.ofList (plainBreaks b) ∧
    (body (around.print b) = String.ofList b ↔ ¬ ['\r', '\n'] <:+: b) ∧
    ∀ (dump : Dump) (settings : Settings) (script : Script) (kind : Routine.Kind) (name : String)
      (earlier later : List Routine), dump.definitions =
        earlier ++ ⟨kind, name, body (around.print b)⟩ :: later →
      (∀ other ∈ later, other.kind = kind → other.name ≠ name) → dump.script settings = .ok script →
      ∃ front back, script.text = front ++ ("-- " ++ kind.label ++ ": " ++ name ++ "\n"
        ++ String.ofList (plainBreaks b) ++ "\n" ++ settings.separator ++ "\n\n") ++ back := by
  have hp := body_print around hb hn
  refine ⟨hp, ?_, ?_⟩
  · rw [hp, String.ofList_inj, plainBreaks_eq_self_iff]
  · intro dump settings script kind name earlier later hd hl hs
    obtain ⟨front, back, ht⟩ := exists_batch_of_last_definition hs hd hl
    rw [hp] at ht
    exact ⟨front, back, ht⟩

/-- A line feed before the body, a row count after an empty line, and the end of its line. -/
def sampleSurround : Surround where
  before := ['\n']
  trailers := [⟨['\n', '\n'], 1, by simp [isBlank, blanks], by simp⟩]
  after := ['\n']
  blankBefore := by simp [isBlank, blanks]
  blankAfter := by simp [isBlank, blanks]

def sampleDump (text : String) : Dump := { definitions := [⟨.procedure, "p", body text⟩] }

theorem script_sampleDump (text : String) :
    ∃ tables, ∀ settings, (sampleDump text).script settings =
    .ok ⟨settings, ⟨[], [], [⟨.procedure, "p", body text⟩], []⟩, tables, []⟩ := by
  let c : Catalog := { procedures := [⟨.procedure, "p", body text⟩] }
  have hs : c.schema = .ok ⟨[], [], c.procedures, []⟩ := by
    have ht : c.tables = [] := by
      simp [c, Catalog.tables, DeclaredOrder.declaredOrder, DeclaredOrder.sortNames]
    rw [Catalog.schema_of_consistent ⟨by simp [c, Catalog.ordinalsOf], by simp [c], by simp [c],
      by simp [c], by simp [c], by simp [c, SingleOwner], by simp [c, SingleOwner]⟩, ht]
    rfl
  obtain ⟨tables, ht⟩ := Script.ofSchema_of_defined
    (by simp : ∀ table ∈ (⟨[], [], c.procedures, []⟩ : Schema).tables,
      ∃ definition, table.define = .ok definition)
  refine ⟨tables, fun settings => ?_⟩
  have hc : (sampleDump text).catalog settings.delimiter = .ok c := rfl
  simp only [Dump.script, Dump.schema, hc, hs, bind, Except.bind, Except.mapError, ht]
  rfl

/-- Where each line ends with a line feed alone, the body is read and written as it was printed. -/
theorem printed_definition_sample :
    body "\nCREATE PROCEDURE p AS\nSELECT 1\n\n(1 rows affected)\n" =
      "CREATE PROCEDURE p AS\nSELECT 1" ∧
    ∃ script,
    (sampleDump "\nCREATE PROCEDURE p AS\nSELECT 1\n\n(1 rows affected)\n").script Settings.usual =
      .ok script ∧
      ∃ front back, script.text =
        front ++ "-- Stored Procedure: p\nCREATE PROCEDURE p AS\nSELECT 1\nGO\n\n" ++ back := by
  have ht : sampleSurround.print "CREATE PROCEDURE p AS\nSELECT 1".toList =
      "\nCREATE PROCEDURE p AS\nSELECT 1\n\n(1 rows affected)\n" := by decide
  obtain ⟨-, hr, hw⟩ :=
    printed_definition sampleSurround (b := "CREATE PROCEDURE p AS\nSELECT 1".toList)
    (by decide) (by decide)
  rw [ht] at hr hw
  obtain ⟨tables, hs⟩ :=
    script_sampleDump "\nCREATE PROCEDURE p AS\nSELECT 1\n\n(1 rows affected)\n"
  obtain ⟨front, back, hw⟩ := hw _ _ _ .procedure "p" [] [] rfl (by simp) (hs _)
  have hb : "-- " ++ Routine.Kind.procedure.label ++ ": " ++ "p" ++ "\n"
      ++ String.ofList (plainBreaks "CREATE PROCEDURE p AS\nSELECT 1".toList) ++ "\n"
        ++ Settings.usual.separator ++ "\n\n" =
      "-- Stored Procedure: p\nCREATE PROCEDURE p AS\nSELECT 1\nGO\n\n" := by decide
  rw [hb] at hw
  exact ⟨(hr.mpr (by decide)).trans (by decide), _, hs _, front, back, hw⟩

/-- The carriage return of a line ending inside a body is lost. -/
theorem printed_definition_return :
    sampleSurround.print "CREATE PROCEDURE p AS\r\nSELECT 1".toList =
      "\nCREATE PROCEDURE p AS\r\nSELECT 1\n\n(1 rows affected)\n" ∧
    Trimmed "CREATE PROCEDURE p AS\r\nSELECT 1".toList ∧
    (∀ piece ∈ "CREATE PROCEDURE p AS\r\nSELECT 1".toList.splitOn '\n', isRowCount piece = false) ∧
    body "\nCREATE PROCEDURE p AS\r\nSELECT 1\n\n(1 rows affected)\n" =
      "CREATE PROCEDURE p AS\nSELECT 1" ∧
    body "\nCREATE PROCEDURE p AS\r\nSELECT 1\n\n(1 rows affected)\n" ≠
      "CREATE PROCEDURE p AS\r\nSELECT 1" := by
  refine ⟨by decide, by decide, by decide, by decide, by decide⟩

end Dump
end CatalogDdl
