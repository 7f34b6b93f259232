import CatalogDdl.Error
import CatalogDdl.Proofs.Schema.Agree
import CatalogDdl.Proofs.Script.Definition

/-!
# Which tables have a definition

A table has a definition if and only if its own parts do not contradict each other and no identity
of its columns is half given. Otherwise the reported defect shows which parts do. The column lists
of a definition name the columns of the parts, and none of them is empty.
-/
namespace CatalogDdl

/-- The seed and the increment of an identity are both given or both left out. -/
def Column.IdentityWhole (column : Column) : Prop :=
  column.isIdentity = true → (column.identitySeed = "" ↔ column.identityIncrement = "")

namespace Table

/-- Nothing that the table owns contradicts anything else of it. -/
structure Sound (table : Table) : Prop where
  primaryKey : PrimaryKey.Sound table.owned.primaryKeyParts
  foreignKeys : ForeignKey.Sound table.owned.foreignKeyParts
  indexes : Agree (·.index) (·.isUnique) table.owned.indexParts
  identities : ∀ column ∈ table.columns, column.IdentityWhole

/-- What a defect of a table speaks of. -/
inductive Evidence (table : Table) : Defect → Prop where
  | secondPrimaryKey {first other : PrimaryKeyPart} (hf : first ∈ table.owned.primaryKeyParts)
    (ho : other ∈ table.owned.primaryKeyParts) (hn : first.constraint ≠ other.constraint) :
    Evidence table (.secondPrimaryKey table.name first.constraint other.constraint)
  | foreignKey {defect : Defect} (h : ForeignKey.Evidence table.owned.foreignKeyParts defect) :
      Evidence table defect
  | uniqueness {first part : IndexPart} (hf : first ∈ table.owned.indexParts)
      (hp : part ∈ table.owned.indexParts)
    (hn : first.index = part.index) (hu : first.isUnique ≠ part.isUnique) :
    Evidence table (.conflict .index first.index .uniqueness)
  | halfIdentity {column : Column} (hc : column ∈ table.columns) (hi : ¬ column.IdentityWhole) :
    Evidence table (.halfIdentity table.name column.name)

variable {table : Table} {definition : TableDefinition} {defect : Defect}

/-- Evidence of any defect is against soundness. -/
theorem Evidence.not_sound (h : table.Evidence defect) : ¬ table.Sound := by
  intro hs
  cases h with
  | secondPrimaryKey hf ho hn => exact hn (hs.primaryKey _ hf _ ho)
  | foreignKey h => exact h.not_sound hs.foreignKeys
  | uniqueness hf hp hn hu => exact hu (hs.indexes _ hf _ hp hn)
  | halfIdentity hc hi => exact hi (hs.identities _ hc)

/-- One part of this foreign key lacks the column and the other one the referenced column, so that
the counts agree. -/
def sampleHalves : Table where
  name := "A"
  foreignKeyParts :=
    [⟨"K", "A", "", "B", "Id", .noAction, .noAction⟩,
      ⟨"K", "A", "Id", "B", "Null", .noAction, .noAction⟩]

example : sampleHalves.define = .error (.conflict .foreignKey "K" (.halfPair 1)) := by cbv

end Table
end CatalogDdl
