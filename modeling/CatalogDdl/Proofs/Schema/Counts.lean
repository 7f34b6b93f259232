import CatalogDdl.Proofs.Schema.Conserved
import Mathlib.Algebra.BigOperators.Group.List.Basic
import Mathlib.Algebra.Order.BigOperators.Group.List
import Mathlib.Algebra.Order.Group.Nat

/-!
# Counts of a part of the tables

In the schema of a catalog each key and each index is of one table, so a count is a sum over the
tables that are counted. The counts of two parts of the tables add up to those of all tables, and
those of a smaller part are not greater.
-/
namespace CatalogDdl

/-- The tables of two parts, and what they own, are as many as those of the whole. -/
structure Counts.AddUp (first second whole : Counts) : Prop where
  tables : first.tables + second.tables = whole.tables
  primaryKeys : first.primaryKeys + second.primaryKeys = whole.primaryKeys
  foreignKeys : first.foreignKeys + second.foreignKeys = whole.foreignKeys
  indexes : first.indexes + second.indexes = whole.indexes

/-- No count is greater than that of the others. -/
structure Counts.AtMost (first second : Counts) : Prop where
  tables : first.tables ≤ second.tables
  procedures : first.procedures ≤ second.procedures
  views : first.views ≤ second.views
  primaryKeys : first.primaryKeys ≤ second.primaryKeys
  foreignKeys : first.foreignKeys ≤ second.foreignKeys
  indexes : first.indexes ≤ second.indexes

namespace Schema

/-- The count is a sum over the tables that are counted. -/
def SumsOver (schema : Schema) (count : Counts → Nat) (size : Table → Nat) : Prop :=
  ∀ keep, count (schema.countsWhere keep) = ((schema.tables.filter keep).map size).sum

namespace SumsOver

variable {schema : Schema} {count : Counts → Nat} {size : Table → Nat}

theorem add_up (h : schema.SumsOver count size) (keep : Table → Bool) :
    count (schema.countsWhere keep) + count (schema.countsWhere fun table => !keep table) =
      count schema.counts := by
  have hp := (List.filter_append_perm keep schema.tables).map size
  rw [h, h, Schema.counts, h, List.filter_true, ← hp.sum_eq, List.map_append, List.sum_append]

/-- A sum over more tables is no smaller. -/
theorem mono (h : schema.SumsOver count size) {fewer more : Table → Bool}
    (hi : ∀ table ∈ schema.tables, fewer table = true → more table = true) :
    count (schema.countsWhere fewer) ≤ count (schema.countsWhere more) := by
  have hf : schema.tables.filter fewer = (schema.tables.filter more).filter fewer := by
    rw [List.filter_filter]
    refine List.filter_congr fun table ht => ?_
    cases hft : fewer table with
    | false => rfl
    | true => rw [hi table ht hft, Bool.and_self]
  rw [h, h, hf]
  exact (List.filter_sublist.map size).sum_le_sum fun n _ => Nat.zero_le n

end SumsOver

section Sums

variable {schema : Schema}

/-- Labels that no two tables have in common are counted table by table. -/
theorem length_labels {α : Type} [BEq α] [LawfulBEq α] {labels : Table → List α}
    (hn : (schema.tables.map (·.name)).Nodup)
    (hd : ∀ a ∈ schema.tables, ∀ b ∈ schema.tables, a.name ≠ b.name →
      (labels a).Disjoint (labels b))
    (keep : Table → Bool) : ((schema.tables.filter keep).flatMap labels).eraseDups.length =
      ((schema.tables.filter keep).map fun table => (labels table).eraseDups.length).sum := by
  refine length_eraseDups_flatMap (List.Pairwise.filter _ ?_)
  exact (List.pairwise_map.mp hn).imp_of_mem fun ha hb hne => hd _ ha _ hb hne

theorem sumsOver_tables (hn : (schema.tables.map (·.name)).Nodup) :
    schema.SumsOver (·.tables) fun _ => 1 := by
  intro keep
  have hk : ((schema.tables.filter keep).map (·.name)).Nodup :=
      hn.sublist (List.filter_sublist.map _)
  simp only [countsWhere, eraseDups_eq_self hk, List.length_map]
  simp

/-- A foreign key is counted with its owner. -/
theorem sumsOver_foreignKeys (hn : (schema.tables.map (·.name)).Nodup) :
    schema.SumsOver (·.foreignKeys) fun table => schema.foreignKeys.countP fun key => key.table =
      table.name := by
  intro keep
  have hk : ((schema.tables.filter keep).map (·.name)).Nodup :=
      hn.sublist (List.filter_sublist.map _)
  let kept := schema.tables.filter keep
  have hp : ((kept.map (·.name)).flatMap fun shared =>
        schema.foreignKeys.filter fun key => key.table = shared).length =
      (schema.foreignKeys.filter fun key => key.table ∈ kept.map (·.name)).length :=
    (flatMap_filter_perm_filter hk _).length_eq
  simp only [kept, List.flatMap_map, List.length_flatMap, ← List.countP_eq_length_filter] at hp
  rw [hp]
  refine List.countP_congr fun key _ => ?_
  simp [and_assoc]

end Sums
end Schema

namespace Catalog

variable {c : Catalog} {schema : Schema}

/-- Tables of different names have no name of a primary key in common. -/
theorem disjoint_primaryKeys (hc : c.Consistent) {a b : Table} (ha : a ∈ c.tables)
    (hb : b ∈ c.tables) (hn : a.name ≠ b.name) :
    (a.primaryKeyParts.map (·.constraint)).Disjoint (b.primaryKeyParts.map (·.constraint)) := by
  rw [(describes_of_mem hc ha).primaryKeyParts, (describes_of_mem hc hb).primaryKeyParts]
  intro name h₁ h₂
  obtain ⟨part, hp, rfl⟩ := List.mem_map.mp h₁
  obtain ⟨other, ho, he⟩ := List.mem_map.mp h₂
  simp only [List.mem_filter, decide_eq_true_eq] at hp ho
  exact hn (hp.2.symm.trans ((hc.primaryKeyOwners part hp.1 other ho.1 he.symm).trans ho.2))

theorem sumsOver_primaryKeys (h : c.schema = .ok schema) :
    schema.SumsOver (·.primaryKeys) fun table =>
      (table.primaryKeyParts.map (·.constraint)).eraseDups.length := by
  have hc := consistent_of_schema h
  have hn := (schema_wellFormed h).nodup
  obtain ⟨-, rfl⟩ := schema_eq_ok h
  exact Schema.length_labels hn fun a ha b hb => disjoint_primaryKeys hc ha hb

/-- Indexes of different tables are different, even under one name. -/
theorem sumsOver_indexes (h : c.schema = .ok schema) :
    schema.SumsOver (·.indexes) fun table =>
      (table.indexParts.map fun part => (table.name, part.index)).eraseDups.length := by
  refine Schema.length_labels (schema_wellFormed h).nodup fun a _ b _ hne pair h₁ h₂ => ?_
  obtain ⟨part, -, rfl⟩ := List.mem_map.mp h₁
  obtain ⟨other, -, he⟩ := List.mem_map.mp h₂
  exact hne (Prod.mk.inj he).1.symm

/-- The counts of the tables that are kept and of those that are not add up to the counts of all
tables. If fewer tables are kept, no count is greater. -/
theorem counts_add_up (h : c.schema = .ok schema) :
    (∀ keep : Table → Bool,
      (schema.countsWhere keep).AddUp (schema.countsWhere fun table => !keep table) schema.counts) ∧
    ∀ fewer more : Table → Bool, (∀ table ∈ schema.tables, fewer table = true → more table = true) →
      (schema.countsWhere fewer).AtMost (schema.countsWhere more) := by
  have hn := (schema_wellFormed h).nodup
  have ht := Schema.sumsOver_tables hn
  have hf := Schema.sumsOver_foreignKeys hn
  have hp := sumsOver_primaryKeys h
  have hi := sumsOver_indexes h
  constructor
  · intro keep
    exact ⟨ht.add_up keep, hp.add_up keep, hf.add_up keep, hi.add_up keep⟩
  · intro fewer more hm
    exact ⟨ht.mono hm, Nat.le_refl _, Nat.le_refl _, hp.mono hm, hf.mono hm, hi.mono hm⟩

/-- Here `A` has a primary key of two parts, both tables have an index of the same name, and `B`
refers to `A`. -/
def sampleOwners : Catalog where
  columns := ["B", "A"].map sampleColumn
  primaryKeys := [⟨"A", "P", "Id", 1⟩, ⟨"B", "Q", "Id", 1⟩, ⟨"A", "P", "Name", 2⟩]
  foreignKeys :=
    [sampleReference "K" "B" "A", sampleReference "L" "A" "A", sampleReference "K" "B" "A"]
  indexes := [⟨"A", "I", false, "Id", 1⟩, ⟨"B", "I", true, "Id", 1⟩]

theorem counts_add_up_sample :
    ∃ schema, sampleOwners.schema = .ok schema ∧ schema.counts = ⟨2, 0, 0, 2, 2, 2⟩ ∧
    (schema.countsWhere fun table => table.name = "A") = ⟨1, 0, 0, 1, 1, 1⟩ ∧
    (schema.countsWhere fun table => table.name = "A").AddUp
      (schema.countsWhere fun table => !decide (table.name = "A")) schema.counts ∧
    (schema.countsWhere fun table => table.name = "A").AtMost schema.counts := by
  have hd : sampleOwners.defect? = none := by cbv
  have hs := schema_of_consistent (defect?_eq_none_iff.mp hd)
  obtain ⟨ha, hm⟩ := counts_add_up hs
  exact ⟨_, hs, by cbv, by cbv, ha _, hm _ (fun _ => true) fun _ _ _ => rfl⟩

/-- No catalog has a schema with one name of a primary key in two tables, and its counts would not
add up. -/
example :
    let shared : Schema :=
      { tables := [{ name := "A", primaryKeyParts := [⟨"A", "P", "Id", 1⟩] },
          { name := "B", primaryKeyParts := [⟨"B", "P", "Id", 1⟩] }] }
    shared.counts.primaryKeys = 1 ∧
      (shared.countsWhere fun table => table.name = "A").primaryKeys = 1 ∧
      (shared.countsWhere fun table => !decide (table.name = "A")).primaryKeys = 1 := by cbv

end Catalog
end CatalogDdl
