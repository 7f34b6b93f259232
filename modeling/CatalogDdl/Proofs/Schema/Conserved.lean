import CatalogDdl.Proofs.Schema.Build
import CatalogDdl.Proofs.Schema.Consistent
import CatalogDdl.Proofs.Schema.Group
import CatalogDdl.Proofs.Script.Definition

/-!
# Nothing is lost in a schema

A schema takes its catalog apart. Each column and each part of a key or an index is in one table, as
often as in the catalog, and the parts keep their order. So a table of the schema has the definition
that it would have with the parts of all tables.
-/
namespace CatalogDdl

/-- The tables take the items apart: together they hold all of them, each as often as it occurs, and
each in one table. -/
structure TakenApart {α : Type} (tables : List Table) (held : Table → List α) (items : List α) :
    Prop where
  perm : (tables.flatMap held).Perm items
  unique : ∀ item ∈ items, ∃! table, table ∈ tables ∧ item ∈ held table

/-- Tables of distinct names that hold what they own take the items apart. -/
theorem takenApart_of_owner {α : Type} {tables : List Table} {held : Table → List α}
    {items : List α} {owner : α → String} (hn : (tables.map (·.name)).Nodup)
    (hh : ∀ table ∈ tables, (held table).Perm (items.filter fun item => owner item = table.name))
    (ho : ∀ item ∈ items, owner item ∈ tables.map (·.name)) : TakenApart tables held items := by
  have hm {table : Table} (ht : table ∈ tables) {item : α} :
      item ∈ held table ↔ item ∈ items ∧ owner item = table.name := by
    rw [(hh table ht).mem_iff, List.mem_filter, decide_eq_true_eq]
  constructor
  · have hp := flatMap_filter_perm hn ho
    rw [List.flatMap_map] at hp
    exact (List.Perm.flatMap_left tables hh).trans hp
  · intro item hi
    obtain ⟨table, ht, he⟩ := List.mem_map.mp (ho item hi)
    refine ⟨table, ⟨ht, (hm ht).mpr ⟨hi, he.symm⟩⟩, ?_⟩
    rintro other ⟨hot, hoi⟩
    exact List.inj_on_of_nodup_map hn hot ht (((hm hot).mp hoi).2.symm.trans he.symm)

namespace Catalog

/-- The table holds what the catalog says about it: its columns in ascending order of their
ordinals, and its parts in the order of the listings. -/
structure Describes (c : Catalog) (table : Table) : Prop where
  columns : table.columns.Perm (c.columns.filter fun column => column.table = table.name)
  ascending : table.columns.Pairwise fun a b => a.ordinal < b.ordinal
  primaryKeyParts : table.primaryKeyParts = c.primaryKeys.filter fun part => part.table = table.name
  foreignKeyParts : table.foreignKeyParts = c.foreignKeys.filter fun part => part.table = table.name
  indexParts : table.indexParts = c.indexes.filter fun part => part.table = table.name

def withAllParts (c : Catalog) (table : Table) : Table where
  name := table.name
  columns := table.columns
  primaryKeyParts := c.primaryKeys
  foreignKeyParts := c.foreignKeys
  indexParts := c.indexes

variable {c : Catalog} {schema : Schema} {table : Table}

theorem consistent_of_schema (h : c.schema = .ok schema) :
    c.Consistent := defect?_eq_none_iff.mp (schema_eq_ok h).1

theorem describes_of_mem (hc : c.Consistent) (ht : table ∈ c.tables) : c.Describes table := by
  rw [eq_table_of_mem ht]
  exact ⟨c.columnsOf_perm _, columnsOf_ascending (hc.ordinals _), rfl, rfl, rfl⟩

theorem Describes.owned_withAllParts (h : c.Describes table) :
    (c.withAllParts table).owned = table := by
  cases table
  simp only [Table.owned, withAllParts, Table.mk.injEq, true_and]
  exact ⟨h.primaryKeyParts.symm, h.foreignKeyParts.symm, h.indexParts.symm⟩

theorem Describes.define_withAllParts (h : c.Describes table) :
    (c.withAllParts table).define = table.define := by
  rw [← Table.define_owned, h.owned_withAllParts]

theorem mem_names_iff {name : String} :
    name ∈ c.tables.map (·.name) ↔ ∃ column ∈ c.columns, column.table = name :=
  mem_map_name_tables.trans hasTable_iff

/-- A schema has each column and each part of its catalog in the one table that owns it, and each
foreign key once, in the order of the listing. -/
theorem schema_conserves (h : c.schema = .ok schema) :
    (schema.tables.map (·.name)).Nodup ∧
    (∀ name, name ∈ schema.tables.map (·.name) ↔ ∃ column ∈ c.columns, column.table = name) ∧
    (∀ table ∈ schema.tables, c.Describes table) ∧
    TakenApart schema.tables (·.columns) c.columns ∧
    TakenApart schema.tables (·.primaryKeyParts) c.primaryKeys ∧
    TakenApart schema.tables (·.foreignKeyParts) c.foreignKeys ∧
    TakenApart schema.tables (·.indexParts) c.indexes ∧
    FirstSeen (c.foreignKeys.map fun part => ⟨part.table, part.constraint⟩) schema.foreignKeys ∧
    ∀ table ∈ schema.tables, (c.withAllParts table).define = table.define := by
  have hc := consistent_of_schema h
  have hn := (schema_wellFormed h).nodup
  obtain ⟨-, rfl⟩ := schema_eq_ok h
  have hd : ∀ table ∈ c.tables, c.Describes table := fun table ht => describes_of_mem hc ht
  refine ⟨hn, fun _ => mem_names_iff, hd, ?_, ?_, ?_, ?_, firstSeen_eraseDups _,
    fun table ht => (hd table ht).define_withAllParts⟩
  · exact takenApart_of_owner hn (fun table ht => (hd table ht).columns)
      fun column hm => mem_names_iff.mpr ⟨column, hm, rfl⟩
  · exact takenApart_of_owner hn (fun table ht => .of_eq (hd table ht).primaryKeyParts)
      fun part hp => mem_names_iff.mpr (hc.primaryKeyTables part hp)
  · exact takenApart_of_owner hn (fun table ht => .of_eq (hd table ht).foreignKeyParts)
      fun part hp => mem_names_iff.mpr (hc.foreignKeyTables part hp)
  · exact takenApart_of_owner hn (fun table ht => .of_eq (hd table ht).indexParts)
      fun part hp => mem_names_iff.mpr (hc.indexTables part hp)

/-- The tables of the sample take its foreign key parts apart, and so they are defined without the
parts of other tables. -/
theorem conserves_sample : sample.schema = .ok sampleSchema ∧
    TakenApart sampleSchema.tables (·.foreignKeyParts) sample.foreignKeys ∧
    FirstSeen (sample.foreignKeys.map fun part => ⟨part.table,
      part.constraint⟩) sampleSchema.foreignKeys ∧
    ∀ table ∈ sampleSchema.tables, (sample.withAllParts table).define = table.define := by
  obtain ⟨-, -, -, -, -, hk, -, hf, hd⟩ := schema_conserves schema_sample
  exact ⟨schema_sample, hk, hf, hd⟩

end Catalog
end CatalogDdl
