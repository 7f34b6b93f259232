import CatalogDdl.Proofs.Schema.Conserved
import CatalogDdl.Proofs.Schema.Placed

/-!
# Catalogs that interleave their tables differently

Rows of different tables may come in any order, and so may the columns of one table. What a catalog
says about each table, whether it is consistent and the declared order of its tables do not depend
on that. Only the listing of all foreign keys does, and only in its order.
-/
namespace CatalogDdl

theorem SingleOwner.congr {α : Type} {name table : α → String} {parts others : List α}
    (h : ∀ part, part ∈ parts ↔ part ∈ others) (hs : SingleOwner name table parts) :
    SingleOwner name table others :=
  fun part hp other ho => hs part ((h part).mpr hp) other ((h other).mpr ho)

namespace Catalog
open DeclaredOrder

/-- Both catalogs have the same rows. The parts that a table owns come in the same order, and so do
the routines. -/
structure Interleaved (c d : Catalog) : Prop where
  columns : c.columns.Perm d.columns
  primaryKeys : SameByName (·.table) c.primaryKeys d.primaryKeys
  foreignKeys : SameByName (·.table) c.foreignKeys d.foreignKeys
  indexes : SameByName (·.table) c.indexes d.indexes
  procedures : c.procedures = d.procedures
  views : c.views = d.views

namespace Interleaved

variable {c d : Catalog}

theorem symm (h : c.Interleaved d) : d.Interleaved c :=
  ⟨h.columns.symm, h.primaryKeys.symm, h.foreignKeys.symm, h.indexes.symm,
    h.procedures.symm, h.views.symm⟩

theorem exists_column_iff (h : c.Interleaved d) {table : String} :
    (∃ column ∈ c.columns, column.table = table) ↔ ∃ column ∈ d.columns, column.table = table := by
  simp only [h.columns.mem_iff]

theorem consistent (h : c.Interleaved d) (hc : c.Consistent) : d.Consistent where
  ordinals table := ((h.columns.filter _).map _).nodup_iff.mp (hc.ordinals table)
  primaryKeyTables part hp :=
    h.exists_column_iff.mp (hc.primaryKeyTables part (h.primaryKeys.mem_iff.mpr hp))
  foreignKeyTables part hp :=
    h.exists_column_iff.mp (hc.foreignKeyTables part (h.foreignKeys.mem_iff.mpr hp))
  referencedTables part hp :=
    h.exists_column_iff.mp (hc.referencedTables part (h.foreignKeys.mem_iff.mpr hp))
  indexTables part hp := h.exists_column_iff.mp (hc.indexTables part (h.indexes.mem_iff.mpr hp))
  primaryKeyOwners := hc.primaryKeyOwners.congr fun _ => h.primaryKeys.mem_iff
  foreignKeyOwners := hc.foreignKeyOwners.congr fun _ => h.foreignKeys.mem_iff

/-- Distinct ordinals leave one order for the columns of a table. -/
theorem columnsOf_eq (h : c.Interleaved d) (hc : c.Consistent) (table : String) :
    c.columnsOf table = d.columnsOf table :=
      mergeSort_eq_of_perm (h.columns.filter _) (hc.ordinals table)

theorem table_eq (h : c.Interleaved d) (hc : c.Consistent) (name : String) :
    c.table name = d.table name := by
  simp only [table, h.columnsOf_eq hc, h.primaryKeys name, h.foreignKeys name, h.indexes name]

theorem tables_eq (h : c.Interleaved d) (hc : c.Consistent) : c.tables = d.tables := by
  have ho : declaredOrder (c.columns.map (·.table)) c.foreignKeys =
      declaredOrder (d.columns.map (·.table)) d.foreignKeys :=
    declaredOrder_congr (fun _ => (h.columns.map _).mem_iff)
      fun _ _ => edge_congr (fun _ => Iff.rfl) fun _ => h.foreignKeys.mem_iff
  rw [tables, tables, ho]
  exact List.map_congr_left fun name _ => h.table_eq hc name

theorem foreignKeyNames_perm (h : c.Interleaved d) : c.foreignKeyNames.Perm d.foreignKeyNames := by
  refine (List.perm_ext_iff_of_nodup (nodup_eraseDups _) (nodup_eraseDups _)).mpr fun key => ?_
  rw [List.mem_eraseDups, List.mem_eraseDups, (h.foreignKeys.perm.map _).mem_iff]

end Interleaved
end Catalog

/-- The schemas differ at most in the order in which all foreign keys are listed. -/
structure Schema.Alike (s t : Schema) : Prop where
  tables : s.tables = t.tables
  foreignKeys : s.foreignKeys.Perm t.foreignKeys
  procedures : s.procedures = t.procedures
  views : s.views = t.views

namespace Catalog

variable {c d : Catalog}

/-- Either both catalogs have a schema or none has, and the schemas are alike. -/
theorem Interleaved.alike (h : c.Interleaved d) :
    ((∃ defect, c.schema = .error defect) ∧ ∃ defect, d.schema = .error defect) ∨
    ∃ s t, c.schema = .ok s ∧ d.schema = .ok t ∧ s.Alike t := by
  by_cases hc : c.Consistent
  · refine .inr ⟨_, _, schema_of_consistent hc, schema_of_consistent (h.consistent hc), ?_⟩
    exact ⟨h.tables_eq hc, h.foreignKeyNames_perm, h.procedures, h.views⟩
  · obtain ⟨defect, he, -⟩ := exists_defect hc
    obtain ⟨other, ho, -⟩ := exists_defect (mt h.symm.consistent hc)
    exact .inl ⟨⟨defect, he⟩, other, ho⟩

/-- The sample with its columns and its foreign key parts in another order. -/
def rewoven : Catalog :=
  { sample with columns := sample.columns.reverse, foreignKeys := sample.foreignKeys.reverse }

theorem interleaved_rewoven : sample.Interleaved rewoven where
  columns := (List.reverse_perm _).symm
  primaryKeys _ := rfl
  foreignKeys := by decide
  indexes _ := rfl
  procedures := rfl
  views := rfl

end Catalog
end CatalogDdl
