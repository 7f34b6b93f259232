import CatalogDdl.Proofs.Schema.Sorted
import CatalogDdl.Schema.Build
import Mathlib.Data.List.Duplicate

/-!
# Consistent catalogs

In a consistent catalog no two columns of a table share an ordinal, each key and index is on a table
of the catalog and refers to one, and each key has one owner. These are the catalogs that have a
schema. Any other catalog has the rows that the reported defect speaks of.
-/
namespace CatalogDdl

def SingleOwner {α : Type} (name table : α → String) (parts : List α) : Prop :=
  ∀ part ∈ parts, ∀ other ∈ parts, name part = name other → table part = table other

namespace Catalog

def ordinalsOf (c : Catalog) (table : String) : List Int :=
  (c.columns.filter fun column => column.table = table).map (·.ordinal)

/-- No row of the catalog contradicts another one. -/
structure Consistent (c : Catalog) : Prop where
  ordinals : ∀ table, (c.ordinalsOf table).Nodup
  primaryKeyTables : ∀ part ∈ c.primaryKeys, ∃ column ∈ c.columns, column.table = part.table
  foreignKeyTables : ∀ part ∈ c.foreignKeys, ∃ column ∈ c.columns, column.table = part.table
  referencedTables : ∀ part ∈ c.foreignKeys, ∃ column ∈ c.columns, column.table =
    part.referencedTable
  indexTables : ∀ part ∈ c.indexes, ∃ column ∈ c.columns, column.table = part.table
  primaryKeyOwners : SingleOwner (·.constraint) (·.table) c.primaryKeys
  foreignKeyOwners : SingleOwner (·.constraint) (·.table) c.foreignKeys

/-- The rows that a defect of a catalog speaks of. -/
inductive Evidence (c : Catalog) : Defect → Prop where
  | repeatedOrdinal {table : String} {ordinal : Int}
      (h : List.Duplicate ordinal (c.ordinalsOf table)) :
    Evidence c (.repeatedOrdinal table ordinal)
  | primaryKeyTable {part : PrimaryKeyPart} (hp : part ∈ c.primaryKeys)
    (ht : ∀ column ∈ c.columns, column.table ≠ part.table) :
    Evidence c (.unknownTable .primaryKey part.constraint part.table)
  | foreignKeyTable {part : ForeignKeyPart} (hp : part ∈ c.foreignKeys)
    (ht : ∀ column ∈ c.columns, column.table ≠ part.table) :
    Evidence c (.unknownTable .foreignKey part.constraint part.table)
  | referencedTable {part : ForeignKeyPart} (hp : part ∈ c.foreignKeys)
    (ht : ∀ column ∈ c.columns, column.table ≠ part.referencedTable) :
    Evidence c (.unknownTable .foreignKey part.constraint part.referencedTable)
  | indexTable {part : IndexPart} (hp : part ∈ c.indexes)
    (ht : ∀ column ∈ c.columns, column.table ≠ part.table) :
    Evidence c (.unknownTable .index part.index part.table)
  | primaryKeyOwners {first part : PrimaryKeyPart} (hf : first ∈ c.primaryKeys)
      (hp : part ∈ c.primaryKeys)
    (hn : first.constraint = part.constraint) (ht : first.table ≠ part.table) :
    Evidence c (.conflict .primaryKey part.constraint (.owners first.table part.table))
  | foreignKeyOwners {first part : ForeignKeyPart} (hf : first ∈ c.foreignKeys)
      (hp : part ∈ c.foreignKeys)
    (hn : first.constraint = part.constraint) (ht : first.table ≠ part.table) :
    Evidence c (.conflict .foreignKey part.constraint (.owners first.table part.table))

variable {c : Catalog}

theorem hasTable_eq_false_iff {table : String} :
    c.hasTable table = false ↔ ∀ column ∈ c.columns, column.table ≠ table := by
  simp [hasTable]

theorem not_exists_column {table : String} (h : ∀ column ∈ c.columns, column.table ≠ table) :
    ¬ ∃ column ∈ c.columns, column.table = table := fun ⟨column, hm, he⟩ => h column hm he

/-- Evidence of any defect is against consistency. -/
theorem Evidence.not_consistent {defect : Defect} (h : c.Evidence defect) : ¬ c.Consistent := by
  intro hc
  cases h with
  | repeatedOrdinal h => exact h.not_nodup (hc.ordinals _)
  | primaryKeyTable hp ht => exact not_exists_column ht (hc.primaryKeyTables _ hp)
  | foreignKeyTable hp ht => exact not_exists_column ht (hc.foreignKeyTables _ hp)
  | referencedTable hp ht => exact not_exists_column ht (hc.referencedTables _ hp)
  | indexTable hp ht => exact not_exists_column ht (hc.indexTables _ hp)
  | primaryKeyOwners hf hp hn ht => exact ht (hc.primaryKeyOwners _ hf _ hp hn)
  | foreignKeyOwners hf hp hn ht => exact ht (hc.foreignKeyOwners _ hf _ hp hn)

theorem columnsOf_perm (c : Catalog) (table : String) :
    (c.columnsOf table).Perm (c.columns.filter fun column => column.table = table) :=
  List.mergeSort_perm _ _

theorem ordinals_columnsOf_perm (c : Catalog) (table : String) :
    ((c.columnsOf table).map (·.ordinal)).Perm (c.ordinalsOf table) :=
      (c.columnsOf_perm table).map _

theorem columnsOf_sorted (c : Catalog) (table : String) :
    (c.columnsOf table).Pairwise fun a b => a.ordinal ≤ b.ordinal :=
      pairwise_mergeSort_key Column.ordinal _

/-- Columns with distinct ordinals are in strictly ascending order of them. -/
theorem columnsOf_ascending {table : String} (h : (c.ordinalsOf table).Nodup) :
    (c.columnsOf table).Pairwise fun a b => a.ordinal < b.ordinal := by
  have hn := (c.ordinals_columnsOf_perm table).nodup_iff.mpr h
  rw [List.Nodup, List.pairwise_map] at hn
  exact ((c.columnsOf_sorted table).and hn).imp fun hab => Int.lt_iff_le_and_ne.mpr hab

/-- A number is found to be repeated only if it is in the list twice. -/
theorem duplicate_of_repeated? {ns : List Int} {n : Int} (h : repeated? ns = some n) :
    List.Duplicate n ns := by
  fun_induction repeated? ns with
  | case1 a rest =>
    cases h
    exact .cons_mem List.mem_cons_self
  | case2 a b rest _ ih => exact (ih h).cons_duplicate
  | case3 => cases h

/-- In a sorted list equal numbers are neighbours. -/
theorem not_mem_of_sorted {a b : Int} {rest : List Int} (hs : (a :: b :: rest).Pairwise (· ≤ ·))
    (hne : a ≠ b) :
    a ∉ b :: rest := by
  intro hm
  rw [List.pairwise_cons] at hs
  have hab := hs.1 b List.mem_cons_self
  have hba : b ≤ a := by
    rcases List.mem_cons.mp hm with rfl | hm
    · exact Int.le_refl _
    · exact (List.pairwise_cons.mp hs.2).1 a hm
  exact hne (Int.le_antisymm hab hba)

/-- In ascending order a number that is repeated stands beside itself. -/
theorem repeated?_eq_none_iff {ns : List Int} (hs : ns.Pairwise (· ≤ ·)) :
    repeated? ns = none ↔ ns.Nodup := by
  fun_induction repeated? ns with
  | case1 a rest => simp
  | case2 a b rest hne ih =>
    rw [ih hs.of_cons, List.nodup_cons (a := a)]
    exact (and_iff_right (not_mem_of_sorted hs hne)).symm
  | case3 ns h =>
    cases ns with
    | nil => simp
    | cons a rest =>
      cases rest with
      | nil => simp
      | cons b rest => exact absurd rfl (h a b rest)

/-- No table has an ordinal twice. -/
theorem ordinalDefect?_eq_none_iff :
    c.ordinalDefect? = none ↔ ∀ table, (c.ordinalsOf table).Nodup := by
  have hr (table : String) : repeated? ((c.columnsOf table).map (·.ordinal)) = none ↔
      (c.ordinalsOf table).Nodup := by
    rw [repeated?_eq_none_iff (List.pairwise_map.mpr (c.columnsOf_sorted table))]
    exact (c.ordinals_columnsOf_perm table).nodup_iff
  simp only [ordinalDefect?, List.findSome?_eq_none_iff, Option.map_eq_none_iff, hr]
  refine ⟨fun h table => ?_, fun h table _ => h table⟩
  by_cases ht : table ∈ c.tableNames
  · exact h table ht
  · -- A name that is not one of the tables has no columns.
    have he : c.columns.filter (fun column => column.table = table) = [] := by
      refine List.filter_eq_nil_iff.mpr fun column hc he => ht ?_
      exact DeclaredOrder.mem_sortNames.mpr (List.mem_map.mpr ⟨column, hc, by simpa using he⟩)
    simp [ordinalsOf, he]

theorem evidence_of_ordinalDefect? {defect : Defect} (h : c.ordinalDefect? = some defect) :
    c.Evidence defect := by
  obtain ⟨table, -, hs⟩ := List.exists_of_findSome?_eq_some h
  obtain ⟨ordinal, hr, rfl⟩ := Option.map_eq_some_iff.mp hs
  have hd := List.duplicate_iff_two_le_count.mp (duplicate_of_repeated? hr)
  rw [(c.ordinals_columnsOf_perm table).count_eq] at hd
  exact .repeatedOrdinal (List.duplicate_iff_two_le_count.mpr hd)

section Owners

variable {α : Type} {name table : α → String} {parts : List α}

/-- A part disagrees with the first one of its name. -/
theorem ownerConflict?_eq_some {part : α} {how : Conflict}
    (h : ownerConflict? name table parts part = some how) :
    ∃ first ∈ parts, name first = name part ∧ table first ≠ table part ∧
      how = .owners (table first) (table part) := by
  unfold ownerConflict? at h
  split at h
  · rename_i first hf
    split at h
    · cases h
    · rename_i hne
      cases h
      exact ⟨first, List.mem_of_find?_eq_some hf, by simpa using List.find?_some hf, hne, rfl⟩
  · cases h

theorem ownerConflict?_eq_none {part first : α} (h : ownerConflict? name table parts part = none)
    (hf : parts.find? (fun other => name other = name part) = some first) :
    table first = table part := by
  simp only [ownerConflict?, hf] at h
  by_contra hne
  simp [hne] at h

/-- It is enough to compare each part with the first one of its name. -/
theorem ownerConflict?_eq_none_iff :
    (∀ part ∈ parts, ownerConflict? name table parts part = none) ↔
      SingleOwner name table parts := by
  constructor
  · intro h part hp other ho hn
    cases hf : parts.find? fun first => name first = name part with
    | none => simpa using List.find?_eq_none.mp hf part hp
    | some first =>
      have ht := ownerConflict?_eq_none (h part hp) hf
      rw [hn] at hf
      exact ht.symm.trans (ownerConflict?_eq_none (h other ho) hf)
  · intro h part hp
    cases hc : ownerConflict? name table parts part with
    | none => rfl
    | some how =>
      obtain ⟨first, hf, hn, ht, -⟩ := ownerConflict?_eq_some hc
      exact absurd (h first hf part hp hn) ht

end Owners

theorem primaryKeyDefect?_eq_none_iff : c.primaryKeyDefect? = none ↔
    (∀ part ∈ c.primaryKeys, ∃ column ∈ c.columns, column.table = part.table) ∧
      SingleOwner (·.constraint) (·.table) c.primaryKeys := by
  rw [← ownerConflict?_eq_none_iff, ← forall₂_and]
  simp only [primaryKeyDefect?, List.findSome?_eq_none_iff, ← hasTable_iff]
  refine forall₂_congr fun part _ => ?_
  cases c.hasTable part.table <;> simp

theorem evidence_of_primaryKeyDefect? {defect : Defect} (h : c.primaryKeyDefect? = some defect) :
    c.Evidence defect := by
  obtain ⟨part, hp, hs⟩ := List.exists_of_findSome?_eq_some h
  cases ht : c.hasTable part.table with
  | false =>
    simp only [ht, Bool.not_false, if_true, Option.some.injEq] at hs
    subst hs
    exact .primaryKeyTable hp (hasTable_eq_false_iff.mp ht)
  | true =>
    simp only [ht, Bool.not_true, Bool.false_eq_true, if_false] at hs
    obtain ⟨how, hc, rfl⟩ := Option.map_eq_some_iff.mp hs
    obtain ⟨first, hf, hn, hne, rfl⟩ := ownerConflict?_eq_some hc
    exact .primaryKeyOwners hf hp hn hne

theorem referenceDefect?_eq_none_iff : c.referenceDefect? = none ↔
    (∀ part ∈ c.foreignKeys, ∃ column ∈ c.columns, column.table = part.table) ∧
      ∀ part ∈ c.foreignKeys, ∃ column ∈ c.columns, column.table = part.referencedTable := by
  rw [← forall₂_and]
  simp only [referenceDefect?, List.findSome?_eq_none_iff, ← hasTable_iff]
  refine forall₂_congr fun part _ => ?_
  cases c.hasTable part.table <;> cases c.hasTable part.referencedTable <;> simp

theorem evidence_of_referenceDefect? {defect : Defect} (h : c.referenceDefect? = some defect) :
    c.Evidence defect := by
  obtain ⟨part, hp, hs⟩ := List.exists_of_findSome?_eq_some h
  cases ht : c.hasTable part.table with
  | false =>
    simp only [ht, Bool.not_false, if_true, Option.some.injEq] at hs
    subst hs
    exact .foreignKeyTable hp (hasTable_eq_false_iff.mp ht)
  | true =>
    cases hr : c.hasTable part.referencedTable with
    | false =>
      simp only [ht, hr, Bool.not_true, Bool.not_false, Bool.false_eq_true, if_false, if_true,
        Option.some.injEq] at hs
      subst hs
      exact .referencedTable hp (hasTable_eq_false_iff.mp hr)
    | true => simp [ht, hr] at hs

theorem indexDefect?_eq_none_iff : c.indexDefect? = none ↔
    ∀ part ∈ c.indexes, ∃ column ∈ c.columns, column.table = part.table := by
  simp only [indexDefect?, List.findSome?_eq_none_iff, ← hasTable_iff]
  refine forall₂_congr fun part _ => ?_
  cases c.hasTable part.table <;> simp

theorem evidence_of_indexDefect? {defect : Defect} (h : c.indexDefect? = some defect) :
    c.Evidence defect := by
  obtain ⟨part, hp, hs⟩ := List.exists_of_findSome?_eq_some h
  cases ht : c.hasTable part.table with
  | false =>
    simp only [ht, Bool.not_false, if_true, Option.some.injEq] at hs
    subst hs
    exact .indexTable hp (hasTable_eq_false_iff.mp ht)
  | true => simp [ht] at hs

theorem foreignKeyDefect?_eq_none_iff :
    c.foreignKeyDefect? = none ↔ SingleOwner (·.constraint) (·.table) c.foreignKeys := by
  rw [← ownerConflict?_eq_none_iff]
  simp only [foreignKeyDefect?, List.findSome?_eq_none_iff, Option.map_eq_none_iff]

theorem evidence_of_foreignKeyDefect? {defect : Defect} (h : c.foreignKeyDefect? = some defect) :
    c.Evidence defect := by
  obtain ⟨part, hp, hs⟩ := List.exists_of_findSome?_eq_some h
  obtain ⟨how, hc, rfl⟩ := Option.map_eq_some_iff.mp hs
  obtain ⟨first, hf, hn, hne, rfl⟩ := ownerConflict?_eq_some hc
  exact .foreignKeyOwners hf hp hn hne

theorem defect?_eq_none_iff : c.defect? = none ↔ c.Consistent := by
  simp only [defect?, Option.or_eq_none_iff, ordinalDefect?_eq_none_iff,
    primaryKeyDefect?_eq_none_iff, referenceDefect?_eq_none_iff, indexDefect?_eq_none_iff,
    foreignKeyDefect?_eq_none_iff]
  constructor
  · rintro ⟨ho, ⟨hp, hpo⟩, ⟨hf, hr⟩, hi, hfo⟩
    exact ⟨ho, hp, hf, hr, hi, hpo, hfo⟩
  · rintro ⟨ho, hp, hf, hr, hi, hpo, hfo⟩
    exact ⟨ho, ⟨hp, hpo⟩, ⟨hf, hr⟩, hi, hfo⟩

theorem evidence_of_defect? {defect : Defect} (h : c.defect? = some defect) :
    c.Evidence defect := by
  simp only [defect?, Option.or_eq_some_iff] at h
  rcases h with h | ⟨-, h | ⟨-, h | ⟨-, h | ⟨-, h⟩⟩⟩⟩
  · exact evidence_of_ordinalDefect? h
  · exact evidence_of_primaryKeyDefect? h
  · exact evidence_of_referenceDefect? h
  · exact evidence_of_indexDefect? h
  · exact evidence_of_foreignKeyDefect? h

theorem schema_of_consistent (h : c.Consistent) :
    c.schema = .ok ⟨c.tables, c.foreignKeyNames, c.procedures, c.views⟩ := by
  simp only [schema, defect?_eq_none_iff.mpr h]

theorem exists_defect (h : ¬ c.Consistent) :
    ∃ defect, c.schema = .error defect ∧ c.Evidence defect := by
  cases hd : c.defect? with
  | none => exact absurd (defect?_eq_none_iff.mp hd) h
  | some defect => exact ⟨defect, by simp only [schema, hd], evidence_of_defect? hd⟩

/-- The consistent catalogs are those with a schema. To the others a defect is reported of which
there is evidence. -/
theorem has_schema_iff_consistent (c : Catalog) :
    ((∃ schema, c.schema = .ok schema) ↔ c.Consistent) ∧
    ((∃ defect, c.schema = .error defect ∧ c.Evidence defect) ↔ ¬ c.Consistent) := by
  refine ⟨⟨?_, fun h => ⟨_, schema_of_consistent h⟩⟩, ?_, exists_defect⟩
  · rintro ⟨schema, hs⟩
    by_contra hc
    obtain ⟨defect, he, -⟩ := exists_defect hc
    rw [hs] at he
    cases he
  · rintro ⟨defect, -, he⟩
    exact he.not_consistent

end Catalog
end CatalogDdl
