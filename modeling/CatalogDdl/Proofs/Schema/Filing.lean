import CatalogDdl.Proofs.Schema.DeclaredOrder
import CatalogDdl.Proofs.Schema.Key
import CatalogDdl.Schema.Build

/-!
# Filing records one by one

Items are grouped by name in one pass that remembers where the group of each name stands. Parts are
handed one by one to the tables that own them, and the tables are then taken out in declared order.
Both come to what is said of groups and tables without a pass.
-/
namespace CatalogDdl

variable {α : Type} {name : α → String} {items : List α}

/-- The groups so far, and the position of each name's group. -/
structure Grouping (α : Type) where
  positions : List (String × Nat) := []
  groups : List (List α) := []

def Grouping.add (name : α → String) (grouping : Grouping α) (item : α) : Grouping α :=
  match grouping.positions.lookup (name item) with
  | some i => { grouping with groups := grouping.groups.modify i (· ++ [item]) }
  | none =>
    { positions := grouping.positions ++ [(name item, grouping.groups.length)]
      groups := grouping.groups ++ [[item]] }

/-- A name is looked up at the place where it first stands. -/
theorem lookup_zipIdx {names : List String} {shared : String} (h : shared ∈ names) (n : Nat) :
    (names.zipIdx n).lookup shared = some (n + names.idxOf shared) := by
  induction names generalizing n with
  | nil => cases h
  | cons first rest ih =>
    rw [List.zipIdx_cons, List.lookup_cons]
    by_cases hf : shared = first
    · simp [hf]
    · have hr : (first == shared) = false := by simpa using Ne.symm hf
      rw [beq_false_of_ne hf, ih (List.mem_of_ne_of_mem hf h), List.idxOf_cons, hr]
      exact congrArg some (by simp only [Bool.cond_false]; omega)

theorem lookup_zipIdx_eq_none {names : List String} {shared : String} (h : shared ∉ names) :
    names.zipIdx.lookup shared = none := by
  rw [List.lookup_eq_none_iff]
  rintro ⟨other, i⟩ hm
  have ho : other ∈ names := List.fst_mem_of_mem_zipIdx hm
  simpa using fun he : shared = other => h (he ▸ ho)

/-- What is changed at the place of a name is changed for that name. -/
theorem modify_idxOf {names : List String} {shared : String} (hn : names.Nodup)
    (f : String → List α) (g : List α → List α) :
    (names.map f).modify (names.idxOf shared) g =
      names.map fun other => if other = shared then g (f other) else f other := by
  induction names with
  | nil => rfl
  | cons first rest ih =>
    obtain ⟨hf, hn⟩ := List.nodup_cons.mp hn
    rw [List.idxOf_cons]
    by_cases he : first = shared
    · subst he
      have hr : rest.map f = rest.map fun other => if other =
          first then g (f other) else f other := by
        refine List.map_congr_left fun other ho => ?_
        rw [if_neg fun he : other = first => hf (he ▸ ho)]
      simp [← hr]
    · have hr : (first == shared) = false := beq_false_of_ne he
      simp only [hr, Bool.cond_false, List.map_cons, List.modify_succ_cons, ih hn, he, if_false]

theorem eraseDups_concat (names : List String) (shared : String) :
    (names ++ [shared]).eraseDups =
      if shared ∈ names then names.eraseDups else names.eraseDups ++ [shared] := by
  rw [List.eraseDups_append]
  by_cases h : shared ∈ names
  · simp [List.removeAll, h]
  · simp [List.removeAll, h, List.eraseDups_cons]

structure Grouping.Of (name : α → String) (items : List α) (grouping : Grouping α) : Prop where
  positions : grouping.positions = (items.map name).eraseDups.zipIdx
  groups : grouping.groups = (items.map name).eraseDups.map fun shared =>
    items.filter fun item => name item = shared

/-- An item joins the group of its name, or it begins one behind the others. -/
theorem Grouping.Of.add {grouping : Grouping α} (h : grouping.Of name items) (item : α) :
    (grouping.add name item).Of name (items ++ [item]) := by
  have hn : (items.map name).eraseDups.Nodup := nodup_eraseDups _
  have he := eraseDups_concat (items.map name) (name item)
  rw [← List.map_singleton, ← List.map_append] at he
  by_cases hm : name item ∈ items.map name
  · rw [if_pos hm] at he
    have hl := lookup_zipIdx (List.mem_eraseDups.mpr hm) 0
    rw [← h.positions] at hl
    simp only [Grouping.add, hl]
    refine ⟨by rw [he, h.positions], ?_⟩
    rw [he, h.groups, Nat.zero_add, modify_idxOf hn]
    refine List.map_congr_left fun shared _ => ?_
    rw [List.filter_append]
    by_cases hs : shared = name item
    · simp [hs]
    · simp [hs, Ne.symm hs]
  · rw [if_neg hm] at he
    have hl := lookup_zipIdx_eq_none (mt List.mem_eraseDups.mp hm)
    rw [← h.positions] at hl
    simp only [Grouping.add, hl]
    constructor
    · rw [he, h.groups, h.positions, List.zipIdx_append, List.length_map, Nat.zero_add]
      rfl
    · rw [he, List.map_append]
      change grouping.groups ++ [[item]] = _
      rw [h.groups]
      congr 1
      · refine List.map_congr_left fun shared hs => ?_
        have hne : name item ≠ shared := fun he => hm (he ▸ List.mem_eraseDups.mp hs)
        simp [List.filter_append, hne]
      · have hf : items.filter (fun other => name other = name item) = [] := by
          refine List.filter_eq_nil_iff.mpr fun other ho => ?_
          simpa using fun he : name other = name item => hm (he ▸ List.mem_map_of_mem ho)
        simp [List.filter_append, hf]

/-- One pass over the items makes their groups. -/
theorem groups_foldl_add (name : α → String) (items : List α) :
    (items.foldl (Grouping.add name) {}).groups = (groupsBy name items).map NameGroup.items := by
  have h : (items.foldl (Grouping.add name) {}).Of name items := by
    induction items using List.reverseRecOn with
    | nil => exact ⟨rfl, rfl⟩
    | append_singleton items item ih =>
      rw [List.foldl_append]
      exact ih.add item
  rw [h.groups, groupsBy, List.map_filterMap, ← List.filterMap_eq_map]
  refine List.filterMap_congr fun shared hs => ?_
  obtain ⟨item, hi, rfl⟩ := List.mem_map.mp (List.mem_eraseDups.mp hs)
  have hm : item ∈ items.filter fun other => name other = name item := by simp [hi]
  cases hf : items.filter fun other => name other = name item with
  | nil =>
    rw [hf] at hm
    cases hm
  | cons first rest =>
    simp only [Function.comp_apply, hf]
    rfl

/-- A field of tables with the parts that they own. -/
structure Shelf (α : Type) where
  owner : α → String
  get : Table → List α
  set : Table → List α → Table
  name_set : ∀ table parts, (set table parts).name = table.name
  get_set : ∀ table parts, get (set table parts) = parts
  set_get : ∀ table, set table (get table) = table
  set_set : ∀ table parts more, set (set table parts) more = set table more

namespace Shelf

/-- Puts a part behind the others of the table that owns it, if there is one. -/
def file (shelf : Shelf α) (tables : List Table) (part : α) : List Table :=
  tables.map fun table =>
    if table.name = shelf.owner part then shelf.set table (shelf.get table ++ [part]) else table

/-- Filed one by one, the parts of a table stand in their order. -/
theorem foldl_file (shelf : Shelf α) (parts : List α) (tables : List Table) :
    parts.foldl shelf.file tables = tables.map fun table => shelf.set table
      (shelf.get table ++ parts.filter fun part => shelf.owner part = table.name) := by
  induction parts generalizing tables with
  | nil => simp [shelf.set_get]
  | cons part rest ih =>
    rw [List.foldl_cons, ih, file, List.map_map]
    refine List.map_congr_left fun table _ => ?_
    by_cases ho : table.name = shelf.owner part
    · simp [ho, shelf.name_set, shelf.get_set, shelf.set_set]
    · simp [ho, Ne.symm ho]

def primaryKeys : Shelf PrimaryKeyPart where
  owner part := part.table
  get table := table.primaryKeyParts
  set table parts := { table with primaryKeyParts := parts }
  name_set _ _ := rfl
  get_set _ _ := rfl
  set_get _ := rfl
  set_set _ _ _ := rfl

def foreignKeys : Shelf ForeignKeyPart where
  owner part := part.table
  get table := table.foreignKeyParts
  set table parts := { table with foreignKeyParts := parts }
  name_set _ _ := rfl
  get_set _ _ := rfl
  set_get _ := rfl
  set_set _ _ _ := rfl

def indexes : Shelf IndexPart where
  owner part := part.table
  get table := table.indexParts
  set table parts := { table with indexParts := parts }
  name_set _ _ := rfl
  get_set _ _ := rfl
  set_get _ := rfl
  set_set _ _ _ := rfl

end Shelf

namespace Catalog
open DeclaredOrder

variable {names order : List String}

/-- The tables in ascending order of their names, with their columns, after all parts were filed. -/
def filed (c : Catalog) : List Table :=
  let tables := c.tableNames.map fun name => { name, columns := c.columnsOf name }
  c.indexes.foldl Shelf.indexes.file
    (c.foreignKeys.foldl Shelf.foreignKeys.file (c.primaryKeys.foldl Shelf.primaryKeys.file tables))

theorem filed_eq (c : Catalog) : c.filed = c.tableNames.map c.table := by
  simp only [filed, Shelf.foldl_file, List.map_map]
  rfl

/-- Takes the named tables out, one after the other. -/
def takeOut : List String → List Table → List Table
  | [], _ => []
  | name :: rest, tables =>
    match tables.find? fun table => table.name = name with
    | some table => table :: takeOut rest (tables.filter fun table => table.name ≠ name)
    | none => takeOut rest tables

/-- Taken out by their names, tables stand in the order of the names. -/
theorem takeOut_map (c : Catalog) (ho : order.Nodup) (hs : ∀ name ∈ order, name ∈ names) :
    takeOut order (names.map c.table) = order.map c.table := by
  induction order generalizing names with
  | nil => rfl
  | cons name rest ih =>
    obtain ⟨hn, ho⟩ := List.nodup_cons.mp ho
    rw [List.forall_mem_cons] at hs
    have hf : (names.map c.table).find? (fun table => table.name = name) = some (c.table name) := by
      have hn : (names.find? fun other => other = name) = some name := by
        cases hf : names.find? fun other => other = name with
        | none => simpa using List.find?_eq_none.mp hf name hs.1
        | some other =>
          have ho : other = name := by simpa using List.find?_some hf
          rw [ho]
      rw [List.find?_map]
      exact congrArg (Option.map c.table) hn
    have hk : (names.map c.table).filter (fun table => table.name ≠ name) =
        (names.filter fun other => other ≠ name).map c.table := List.filter_map
    simp only [takeOut, hf, hk, List.map_cons]
    rw [ih ho fun other hm => ?_]
    exact List.mem_filter.mpr ⟨hs.2 other hm, by simpa using fun he : other = name => hn (he ▸ hm)⟩

/-- Filed and taken out in declared order, the tables are those of the catalog. -/
theorem takeOut_filed (c : Catalog) :
    takeOut (declaredOrder (c.columns.map (·.table)) c.foreignKeys) c.filed = c.tables := by
  rw [filed_eq, takeOut_map c (nodup_declaredOrder _ _) fun name hn => ?_]
  · rfl
  · rw [tableNames, mem_sortNames]
    exact mem_declaredOrder.mp hn

end Catalog
end CatalogDdl
