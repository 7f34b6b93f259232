import CatalogDdl.Proofs.Schema.Counts
import CatalogDdl.Proofs.Script.Drops

/-!
# What a script counts

The counts of a script are taken from its schema: names of keys and indexes are counted there, and
foreign keys by their owners. They are the numbers of the statements in the script, because a key
has one owner and a table has one primary key.
-/
namespace CatalogDdl

namespace Statement

def createdRoutine? : Statement → Option Routine
  | createRoutine routine => some routine
  | _ => none

def createdRoutines (statements : List Statement) : List Routine :=
  statements.filterMap createdRoutine?

end Statement

/-- The line of a head that has the counts. -/
def Counts.line (counts : Counts) : String :=
  "-- Tables: " ++ toString counts.tables ++ " | Stored Procedures: " ++ toString counts.procedures
    ++ " | Views: " ++ toString counts.views ++ "\n"

/-- The lines of a head above the one with the counts. -/
def Settings.topLines (settings : Settings) : String :=
  ruler ++ "\n-- " ++ settings.title ++ "\n"
    ++ (match settings.madeAt with
      | some time => "-- Generated: " ++ time.text ++ "\n"
      | none => "")

theorem Settings.head_eq (settings : Settings) (counts : Counts) :
    settings.head counts.tables counts.procedures counts.views =
      settings.topLines ++ counts.line ++ (ruler ++ "\n" ++ settings.place ++ "\n") := by
  unfold head topLines Counts.line
  cases settings.madeAt <;> simp only [String.append_assoc]

namespace Script

variable {c : Catalog} {settings : Settings} {schema : Schema} {script : Script}

/-- All routines are created, the procedures before the views. -/
theorem createdRoutines_statements (script : Script) :
    Statement.createdRoutines script.statements =
      script.schema.procedures ++ script.schema.views := by
  have hd : ∀ s : Statement, s.isCreation = false → s.createdRoutine? = none := by
    intro s hs
    cases s <;> simp_all [Statement.isCreation, Statement.createdRoutine?]
  have ht (table : TableDefinition) :
      table.statements.filterMap Statement.createdRoutine? = [] := by
    rw [TableDefinition.statements, List.filterMap_cons_none rfl]
    simp [Statement.createdRoutine?]
  have hr (routines : List Routine) :
      routines.filterMap (fun routine => (Statement.createRoutine routine).createdRoutine?) =
        routines :=
    List.filterMap_some
  rw [Statement.createdRoutines, filterMap_statements_of_creation script hd, hr]
  rw [List.flatMap_eq_nil_iff.mpr fun table _ => ht table, List.nil_append]

end Script
end CatalogDdl
