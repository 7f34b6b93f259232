import CatalogDdl.Proofs.Schema.DeclaredOrder
import CatalogDdl.Schema.Build
import Mathlib.Data.List.Permutation

/-!
# What a schema has of its catalog

A catalog with a schema has no foreign key part on an unknown table, so the tables of the schema
have distinct names, own their parts and refer to each other only.
-/
namespace CatalogDdl

/-- What holds of the tables of every schema that a catalog describes. -/
structure Schema.WellFormed (schema : Schema) : Prop where
  nodup : (schema.tables.map (·.name)).Nodup
  owned : ∀ table ∈ schema.tables, ∀ part ∈ table.foreignKeyParts, part.table = table.name
  referenced : ∀ table ∈ schema.tables, ∀ part ∈ table.foreignKeyParts,
    part.referencedTable ∈ schema.tables.map (·.name)

namespace Catalog
open DeclaredOrder

variable {c : Catalog} {schema : Schema}

theorem schema_eq_ok (h : c.schema = .ok schema) :
    c.defect? = none ∧ schema = ⟨c.tables, c.foreignKeyNames, c.procedures, c.views⟩ := by
  unfold Catalog.schema at h
  split at h
  · cases h
  · rename_i hd
    cases h
    exact ⟨hd, rfl⟩

theorem routines_of_schema (h : c.schema = .ok schema) (kind : Routine.Kind) :
    schema.routines kind = c.routines kind := by
  obtain ⟨-, rfl⟩ := schema_eq_ok h
  cases kind <;> rfl

@[simp] theorem table_name (c : Catalog) (name : String) : (c.table name).name = name := rfl

/-- The names of the tables are in declared order. -/
theorem map_name_tables (c : Catalog) :
    c.tables.map (·.name) = declaredOrder (c.columns.map (·.table)) c.foreignKeys := by
  simp [tables, Function.comp_def]

theorem mem_map_name_tables {name : String} :
    name ∈ c.tables.map (·.name) ↔ c.hasTable name = true := by
  rw [map_name_tables, mem_declaredOrder, hasTable_iff]
  simp

/-- A table of the schema is what the catalog says under its name. -/
theorem eq_table_of_mem {table : Table} (h : table ∈ c.tables) : table = c.table table.name := by
  obtain ⟨name, -, rfl⟩ := List.mem_map.mp h
  rfl

theorem mem_foreignKeyParts {table : Table} {part : ForeignKeyPart} (h : table ∈ c.tables) :
    part ∈ table.foreignKeyParts ↔ part ∈ c.foreignKeys ∧ part.table = table.name := by
  rw [eq_table_of_mem h]
  simp [Catalog.table]

/-- Both ends of a foreign key part are tables of the catalog. -/
theorem hasTable_of_mem_foreignKeys (h : c.defect? = none) {part : ForeignKeyPart}
    (hp : part ∈ c.foreignKeys) :
    c.hasTable part.table = true ∧ c.hasTable part.referencedTable = true := by
  have hr : c.referenceDefect? = none := by
    simp only [defect?, Option.or_eq_none_iff] at h
    exact h.2.2.1
  have hn := List.findSome?_eq_none_iff.mp hr part hp
  by_cases ho : c.hasTable part.table = true
  · by_cases ht : c.hasTable part.referencedTable = true
    · exact ⟨ho, ht⟩
    · simp [ho, ht] at hn
  · simp [ho] at hn

/-- In the schema of a catalog tables own their parts and refer to each other only. -/
theorem schema_wellFormed (h : c.schema = .ok schema) : schema.WellFormed := by
  obtain ⟨hd, rfl⟩ := schema_eq_ok h
  constructor
  · rw [map_name_tables]
    exact nodup_declaredOrder _ _
  · intro table ht part hp
    exact ((mem_foreignKeyParts ht).mp hp).2
  · intro table ht part hp
    exact mem_map_name_tables.mpr
      (hasTable_of_mem_foreignKeys hd ((mem_foreignKeyParts ht).mp hp).1).2

def sampleColumn (table : String) : Column :=
  ⟨table, "Id", "int", 4, 10, 0, false, false, "", "", none, 1⟩

def sampleReference (key table referenced : String) : ForeignKeyPart :=
  ⟨key, table, "Id", referenced, "Id", .noAction, .noAction⟩

/-- Here `C` refers to `B`, and `B` to `A`, which has two primary keys; `D` refers to itself, and
`E` and `F` to each other. -/
def sample : Catalog where
  columns := ["F", "C", "D", "B", "A", "E"].map sampleColumn
  primaryKeys := [⟨"A", "P", "Id", 1⟩, ⟨"A", "Q", "Id", 1⟩]
  foreignKeys :=
    [sampleReference "K" "C" "B", sampleReference "L" "B" "A", sampleReference "M" "D" "D",
    sampleReference "N" "E" "F", sampleReference "O" "F" "E"]

def sampleSchema : Schema := ⟨sample.tables, sample.foreignKeyNames, [], []⟩

theorem schema_sample : sample.schema = .ok sampleSchema := by
  have hd : sample.defect? = none := by cbv
  simp only [Catalog.schema, hd, sampleSchema]
  rfl

example : sampleSchema.tables.map (·.name) = ["A", "B", "C", "D", "E", "F"] := by cbv

/-- Each `Order` refers to a `User`. There are primary keys, an index and one routine of each
kind. -/
def stocked : Catalog where
  columns := ["Order", "User"].map sampleColumn ++
    [⟨"Order", "By", "int", 4, 10, 0, false, false, "", "", none, 2⟩]
  primaryKeys := [⟨"Order", "PK_Order", "Id", 1⟩, ⟨"User", "PK_User", "Id", 1⟩]
  foreignKeys := [⟨"FK_Order", "Order", "By", "User", "Id", .cascade, .noAction⟩]
  indexes := [⟨"Order", "IX_Order", false, "By", 1⟩]
  procedures := [⟨.procedure, "Purge", "CREATE PROCEDURE Purge AS DELETE Order"⟩]
  views := [⟨.view, "Open", "CREATE VIEW Open AS SELECT Id FROM Order"⟩]

def stockedSchema : Schema :=
  ⟨stocked.tables, stocked.foreignKeyNames, stocked.procedures, stocked.views⟩

theorem schema_stocked : stocked.schema = .ok stockedSchema := by
  have hd : stocked.defect? = none := by cbv
  simp only [Catalog.schema, hd, stockedSchema]

end Catalog
end CatalogDdl
