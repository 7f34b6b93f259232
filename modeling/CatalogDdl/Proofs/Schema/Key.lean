import CatalogDdl.Proofs.Fallible
import CatalogDdl.Proofs.Schema.Group
import CatalogDdl.Schema.Key

/-!
# What a key has of its parts

The groups of parts with one name are the parts of that name. A key or an index is put together from
such a group, so it has the name of its parts and no columns but theirs. Parts of other tables make
no difference.
-/
namespace CatalogDdl

variable {α : Type}

theorem NameGroup.first_mem_items (group : NameGroup α) :
    group.first ∈ group.items := by simp [items]

section Groups

variable {name : α → String} {items : List α} {group : NameGroup α}

/-- A group has all items of its name, in their order. -/
theorem items_of_mem_groupsBy (h : group ∈ groupsBy name items) :
    group.items = items.filter fun item => name item = name group.first := by
  obtain ⟨shared, -, hs⟩ := List.mem_filterMap.mp h
  cases hf : items.filter fun item => name item = shared with
  | nil => simp [hf] at hs
  | cons first rest =>
    simp only [hf, NameGroup.ofList?_cons, Option.some.injEq] at hs
    subst hs
    have hm : first ∈ items.filter fun item => name item = shared := by simp [hf]
    have hn : name first = shared := by simpa using (List.mem_filter.mp hm).2
    rw [NameGroup.items_mk, hn, hf]

/-- The items of a group are some of the items grouped. -/
theorem mem_of_mem_groupsBy (h : group ∈ groupsBy name items) :
    ∀ item ∈ group.items, item ∈ items := by
  rw [items_of_mem_groupsBy h]
  exact fun item hi => List.mem_of_mem_filter hi

theorem name_of_mem_group (h : group ∈ groupsBy name items) {item : α} (hi : item ∈ group.items) :
    name item = name group.first := by
  rw [items_of_mem_groupsBy h] at hi
  simpa using (List.mem_filter.mp hi).2

/-- The items that were grouped all satisfied what the groups were made under. -/
theorem owned_of_mem_groupsBy {owns : α → Bool} {parts : List α}
    (h : group ∈ groupsBy name (parts.filter owns)) :
    group.first ∈ parts ∧ owns group.first = true :=
  List.mem_filter.mp (mem_of_mem_groupsBy h _ group.first_mem_items)

/-- Each name has a group, and the groups stand in the order in which the names first occur. -/
theorem map_name_groupsBy (name : α → String) (items : List α) :
    (groupsBy name items).map (fun group => name group.first) = (items.map name).eraseDups := by
  have hs : ∀ shared ∈ (items.map name).eraseDups,
      (NameGroup.ofList? (items.filter fun item => name item = shared)).map (fun group =>
        name group.first) =
        some shared := by
    intro shared hm
    obtain ⟨item, hi, rfl⟩ := List.mem_map.mp (List.mem_eraseDups.mp hm)
    cases hf : items.filter fun other => name other = name item with
    | nil => simpa using List.filter_eq_nil_iff.mp hf item hi
    | cons first rest =>
      have hn : first ∈ items.filter fun other => name other = name item := by simp [hf]
      simpa using (List.mem_filter.mp hn).2
  rw [groupsBy, List.map_filterMap, List.filterMap_congr hs, List.filterMap_some]

/-- Each item is in the group of its name. -/
theorem exists_group_of_mem (name : α → String) {item : α} (h : item ∈ items) :
    ∃ group ∈ groupsBy name items, item ∈ group.items := by
  have hm : name item ∈ (groupsBy name items).map fun group => name group.first := by
    rw [map_name_groupsBy, List.mem_eraseDups]
    exact List.mem_map_of_mem h
  obtain ⟨group, hg, hn⟩ := List.mem_map.mp hm
  refine ⟨group, hg, ?_⟩
  rw [items_of_mem_groupsBy hg]
  exact List.mem_filter.mpr ⟨h, by simpa using hn.symm⟩

end Groups

namespace PrimaryKey

variable {table : String} {parts : List PrimaryKeyPart}

/-- A table without a primary key owns no part of one. -/
theorem ofParts_eq_none (h : ofParts table parts = .ok none) :
    parts.filter (fun part => part.table = table) = [] := by
  unfold ofParts at h
  split at h
  · assumption
  · split at h <;> cases h

/-- A primary key has the name of all parts of its table, and their columns by position. -/
theorem ofParts_eq_some {key : PrimaryKey} (h : ofParts table parts = .ok (some key)) :
    parts.filter (fun part => part.table = table) ≠ [] ∧
    (∀ part ∈ parts.filter (fun part => part.table = table), part.constraint = key.name) ∧
    key.columns =
      ((parts.filter fun part => part.table = table).mergeSort fun a b =>
        a.position ≤ b.position).map (·.column) := by
  unfold ofParts at h
  split at h
  · cases h
  · rename_i first rest hp
    split at h
    · cases h
    · rename_i hf
      cases h
      rw [hp]
      refine ⟨List.cons_ne_nil _ _, List.forall_mem_cons.mpr ⟨rfl, fun part hm => ?_⟩, rfl⟩
      simpa using List.find?_eq_none.mp hf part hm

/-- The name of a primary key is the one name that its parts have. -/
theorem names_of_ofParts {key? : Option PrimaryKey} (h : ofParts table parts = .ok key?) :
    ((parts.filter fun part => part.table = table).map (·.constraint)).eraseDups =
      (key?.map (·.name)).toList := by
  cases key? with
  | none =>
    rw [ofParts_eq_none h]
    rfl
  | some key =>
    obtain ⟨hne, hn, -⟩ := ofParts_eq_some h
    rw [List.map_congr_left hn, List.map_const']
    obtain ⟨first, rest, hp⟩ := List.exists_cons_of_ne_nil hne
    rw [hp, List.length_cons, List.replicate_succ, List.eraseDups_cons]
    simp

theorem ofParts_owned (table : String) (parts : List PrimaryKeyPart) :
    ofParts table (parts.filter fun part => part.table = table) = ofParts table parts := by
  simp only [ofParts, List.filter_filter, Bool.and_self]

end PrimaryKey

namespace ForeignKey

variable {table : String} {parts : List ForeignKeyPart} {keys : List ForeignKey} {key : ForeignKey}

/-- A foreign key has the columns of all its parts, in their order, and the rest of the first
one. -/
theorem eq_of_ofGroup {group : NameGroup ForeignKeyPart} (h : ofGroup group = .ok key) :
    defect? group = none ∧
    key = ⟨group.first.constraint, group.first.table, group.items.map (·.column),
      group.first.referencedTable, group.items.map (·.referencedColumn), group.first.onDelete,
      group.first.onUpdate⟩ := by
  unfold ofGroup at h
  split at h
  · cases h
  · rename_i hd
    cases h
    exact ⟨hd, rfl⟩

theorem ofGroup_eq_error_iff {group : NameGroup ForeignKeyPart} {defect : Defect} :
    ofGroup group = .error defect ↔ defect? group = some defect := by
  cases hd : defect? group <;> simp [ofGroup, hd]

/-- A foreign key of a table is put together from the table's parts of its name. -/
theorem exists_group (h : ofParts table parts = .ok keys) (hk : key ∈ keys) : ∃ group :
    NameGroup ForeignKeyPart,
    group.items =
      (parts.filter fun part => part.table = table).filter (fun part =>
        part.constraint = key.name) ∧
      ofGroup group = .ok key := by
  obtain ⟨group, hg, hf⟩ := exists_item_of_mem h hk
  refine ⟨group, ?_, hf⟩
  rw [items_of_mem_groupsBy hg, (eq_of_ofGroup hf).2]

/-- A foreign key of a table is named and refers as one of the table's own parts says. -/
theorem exists_part (h : ofParts table parts = .ok keys) (hk : key ∈ keys) :
    key.table = table ∧ ∃ part ∈ parts, part.table = table ∧ part.constraint = key.name ∧
      part.referencedTable = key.referencedTable := by
  obtain ⟨group, hg, hf⟩ := exists_item_of_mem h hk
  obtain ⟨hp, ht⟩ := owned_of_mem_groupsBy hg
  obtain ⟨-, rfl⟩ := eq_of_ofGroup hf
  have ht : group.first.table = table := by simpa using ht
  exact ⟨ht, group.first, hp, ht, rfl, rfl⟩

theorem names_of_ofParts (h : ofParts table parts = .ok keys) :
    keys.map (·.name) =
      ((parts.filter fun part => part.table = table).map (·.constraint)).eraseDups := by
  rw [← map_name_groupsBy]
  refine map_results_eq h fun group _ key hg => ?_
  rw [(eq_of_ofGroup hg).2]

theorem ofParts_owned (table : String) (parts : List ForeignKeyPart) :
    ofParts table (parts.filter fun part => part.table = table) = ofParts table parts := by
  simp only [ofParts, List.filter_filter, Bool.and_self]

end ForeignKey

namespace Index

variable {table : String} {parts : List IndexPart} {indexes : List Index} {index : Index}

/-- An index has the columns of all its parts, and the rest of the first one. -/
theorem eq_of_ofGroup {group : NameGroup IndexPart} (h : ofGroup group = .ok index) :
    (∀ part ∈ group.rest, part.isUnique = group.first.isUnique) ∧
    index = ⟨group.first.index, group.first.table, group.first.isUnique, (split group.items).1,
      (split group.items).2⟩ := by
  unfold ofGroup at h
  split at h
  · cases h
  · rename_i hu
    cases h
    exact ⟨by simpa using hu, rfl⟩

/-- An index of a table is put together from the table's parts of its name. -/
theorem exists_group (h : ofParts table parts = .ok indexes) (hi : index ∈ indexes) : ∃ group :
    NameGroup IndexPart,
    group.items =
      (parts.filter fun part => part.table = table).filter (fun part => part.index = index.name) ∧
      ofGroup group = .ok index := by
  obtain ⟨group, hg, hf⟩ := exists_item_of_mem h hi
  refine ⟨group, ?_, hf⟩
  rw [items_of_mem_groupsBy hg, (eq_of_ofGroup hf).2]

theorem table_eq (h : ofParts table parts = .ok indexes) (hi : index ∈ indexes) :
    index.table = table := by
  obtain ⟨group, hg, hf⟩ := exists_item_of_mem h hi
  obtain ⟨-, rfl⟩ := eq_of_ofGroup hf
  simpa using (owned_of_mem_groupsBy hg).2

theorem names_of_ofParts (h : ofParts table parts = .ok indexes) :
    indexes.map (·.name) =
      ((parts.filter fun part => part.table = table).map (·.index)).eraseDups := by
  rw [← map_name_groupsBy]
  refine map_results_eq h fun group _ index hg => ?_
  rw [(eq_of_ofGroup hg).2]

theorem ofParts_owned (table : String) (parts : List IndexPart) :
    ofParts table (parts.filter fun part => part.table = table) = ofParts table parts := by
  simp only [ofParts, List.filter_filter, Bool.and_self]

/-- An index has each column of its parts once, as a key column or as an included one. -/
theorem split_perm (parts : List IndexPart) :
    ((split parts).1 ++ (split parts).2).Perm (parts.map (·.column)) := by
  unfold split
  split
  · rw [List.append_nil]
  · rw [← List.map_append]
    refine List.Perm.map _ (((List.mergeSort_perm _ _).append_right _).trans ?_)
    simpa using List.filter_append_perm (fun part : IndexPart => part.position ≠ 0) parts

/-- An index has a key column. -/
theorem keys_ne_nil {parts : List IndexPart} (h : parts ≠ []) : (split parts).1 ≠ [] := by
  unfold split
  split
  · simpa using h
  · rename_i hz
    obtain ⟨part, hp, hne⟩ : ∃ part ∈ parts, part.position ≠ 0 := by simpa using hz
    have hm : part ∈ (parts.filter fun part => part.position ≠ 0).mergeSort fun a b =>
        a.position ≤ b.position :=
      List.mem_mergeSort.mpr (List.mem_filter.mpr ⟨hp, by simpa using hne⟩)
    exact List.ne_nil_of_mem (List.mem_map_of_mem hm)

end Index
end CatalogDdl
