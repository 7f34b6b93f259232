import CatalogDdl.Script.Definition

/-!
# Skipped tables

A table that has a defect may be left out of a script. A table that refers to one left out is then
left out as well, and so on until every reference of a remaining table is to a remaining table or to
itself.
-/
namespace CatalogDdl

structure Draft where
  table : Table
  definition : TableDefinition
  deriving DecidableEq, Repr, Inhabited

inductive Skip.Reason where
  | defect (defect : Defect)
  /-- A foreign key of the table refers to a table left out before. -/
  | reference (table foreignKey : String)
  deriving DecidableEq, Repr

def Skip.Reason.message : Skip.Reason → String
  | .defect d => d.message
  | .reference table foreignKey => "references skipped table " ++ table ++ " via " ++ foreignKey

structure Skip where
  name : String
  reason : Skip.Reason
  deriving DecidableEq, Repr

namespace Skip

def drafts (tables : List Table) : List Draft :=
  tables.filterMap fun table => match table.define with
    | .ok definition => some ⟨table, definition⟩
    | .error _ => none

def defective (tables : List Table) : List Skip :=
  tables.filterMap fun table => match table.define with
    | .ok _ => none
    | .error defect => some ⟨table.name, .defect defect⟩

/-- The skip of a table that refers to one of the named tables, other than itself. -/
def following? (skipped : List String) (table : Table) : Option Skip :=
  (table.foreignKeyParts.find? fun part =>
      part.referencedTable ≠ table.name && skipped.contains part.referencedTable).map fun part =>
    ⟨table.name, .reference part.referencedTable part.constraint⟩

structure Selection where
  kept : List Draft := []
  left : List Skip := []
  deriving DecidableEq, Repr

/-- Passes over the drafts once. A table left out counts as skipped for the tables after it. -/
def sweep (skipped : List String) : List Draft → Selection
  | [] => {}
  | draft :: rest =>
    match following? skipped draft.table with
    | some skip =>
      let after := sweep (skip.name :: skipped) rest
      { after with left := skip :: after.left }
    | none =>
      let after := sweep skipped rest
      { after with kept := draft :: after.kept }

@[simp] theorem sweep_nil (skipped : List String) : sweep skipped [] = {} := rfl

/-- Each draft is either kept or left out. -/
theorem length_sweep (skipped : List String) (drafts : List Draft) :
    (sweep skipped drafts).kept.length + (sweep skipped drafts).left.length = drafts.length := by
  induction drafts generalizing skipped with
  | nil => rfl
  | cons draft rest ih =>
    unfold sweep
    split
    · rename_i skip _
      have h := ih (skip.name :: skipped)
      simp only [List.length_cons]
      omega
    · have h := ih skipped
      simp only [List.length_cons]
      omega

def names (skipped : List Skip) : List String := skipped.map (·.name)

theorem length_kept_lt {skipped : List String} {drafts : List Draft}
    (h : (sweep skipped drafts).left ≠ []) :
    (sweep skipped drafts).kept.length < drafts.length := by
  have hs := length_sweep skipped drafts
  have hp := List.length_pos_iff.mpr h
  omega

/-- Passes over the drafts until a pass leaves nothing out. -/
def spread (skipped : List Skip) (drafts : List Draft) : Selection :=
  let pass := sweep (names skipped) drafts
  if pass.left = [] then { kept := drafts, left := skipped }
  else spread (skipped ++ pass.left) pass.kept
termination_by drafts.length
decreasing_by exact length_kept_lt ‹_›

/-- Leaves out the tables with a defect and every table that depends on one of them. -/
def select (tables : List Table) : Selection := spread (defective tables) (drafts tables)

end Skip
end CatalogDdl
