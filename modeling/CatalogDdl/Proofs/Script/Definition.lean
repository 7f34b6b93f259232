import CatalogDdl.Proofs.Schema.Key
import CatalogDdl.Script.Definition

/-!
# What a table definition has of its table

A definition carries the name of its table and is put together from the parts that the table owns.
Parts of other tables among them make no difference.
-/
namespace CatalogDdl.Table

/-- The table with only the parts that carry its name. -/
def owned (table : Table) : Table where
  name := table.name
  columns := table.columns
  primaryKeyParts := table.primaryKeyParts.filter fun part => part.table = table.name
  foreignKeyParts := table.foreignKeyParts.filter fun part => part.table = table.name
  indexParts := table.indexParts.filter fun part => part.table = table.name

theorem define_owned (table : Table) : table.owned.define = table.define := by
  simp only [define, owned, PrimaryKey.ofParts_owned, ForeignKey.ofParts_owned, Index.ofParts_owned]

/-- What a definition is put together from. -/
theorem define_eq_ok {table : Table} {definition : TableDefinition}
    (h : table.define = .ok definition) :
    PrimaryKey.ofParts table.name table.primaryKeyParts = .ok definition.primaryKey ∧
    ForeignKey.ofParts table.name table.foreignKeyParts = .ok definition.foreignKeys ∧
    Index.ofParts table.name table.indexParts = .ok definition.indexes ∧
    table.columns.mapM (Column.define table.name) = .ok definition.columns ∧
    definition.name = table.name := by
  simp only [define, bind_eq_ok_iff] at h
  obtain ⟨_, hp, _, hk, _, hi, _, hc, hd⟩ := h
  cases hd
  exact ⟨hp, hk, hi, hc, rfl⟩

theorem name_of_define {table : Table} {definition : TableDefinition}
    (h : table.define = .ok definition) :
    definition.name = table.name := (define_eq_ok h).2.2.2.2

end CatalogDdl.Table
