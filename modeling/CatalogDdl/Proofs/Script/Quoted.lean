import CatalogDdl.Proofs.Catalog.Redefined
import CatalogDdl.Proofs.Script.Created
import CatalogDdl.Proofs.Text.Lined

/-!
# What statements quote

A statement quotes texts of the catalog. Those of a table are texts of its columns and of its parts,
so where no text of the catalog has a line feed no statement quotes one.
-/
namespace CatalogDdl
open Text

def ColumnDefinition.texts (column : ColumnDefinition) : List String :=
  [column.name, column.type] ++ (column.identity.toList.flatMap fun identity => [identity.seed,
    identity.increment])
    ++ column.defaultValue.toList

def PrimaryKey.texts (key : PrimaryKey) : List String := key.name :: key.columns

def ForeignKey.texts (key : ForeignKey) : List String :=
  [key.name, key.table, key.referencedTable] ++ key.columns ++ key.referencedColumns

def Index.texts (index : Index) : List String :=
  [index.name, index.table] ++ index.columns ++ index.included

/-- The texts that a statement quotes. The definition of a routine is not quoted. -/
def Statement.texts : Statement → List String
  | use database => [database]
  | dropForeignKey key => [key.table, key.name]
  | dropTable table => [table]
  | dropRoutine _ name => [name]
  | createTable table =>
    table.name :: (table.columns.flatMap (·.texts) ++ table.primaryKey.toList.flatMap (·.texts))
  | addForeignKey key => key.texts
  | createIndex index => index.texts
  | createRoutine routine => [routine.name]

theorem DataType.unbroken_suffix (family : Family) (maxLength precision scale : Int) :
    Unbroken (suffix family maxLength precision scale) := by
  have hm : Unbroken "(MAX)" := by decide
  have hl (n : Int) : Unbroken (length n) := by
    simp only [length, unbroken_append_iff, unbroken_toString_int]
    decide
  cases family with
  | bytes =>
    simp only [suffix]
    split
    · exact hm
    · exact hl _
  | wide =>
    simp only [suffix]
    split
    · exact hm
    · exact hl _
  | decimal =>
    simp only [suffix, unbroken_append_iff, unbroken_toString_int]
    decide
  | plain => exact (by decide : Unbroken "")

/-- The identity of a column has its seed and increment, or two numbers for them. -/
theorem Column.texts_of_identity {table : String} {column : Column} {identity : Identity}
    (h : column.identity? table = .ok (some identity)) :
    identity = ⟨"1", "1"⟩ ∨ identity = ⟨column.identitySeed, column.identityIncrement⟩ := by
  unfold identity? at h
  split at h
  · cases h
  · split at h
    · cases h
      exact .inl rfl
    · split at h
      · cases h
      · cases h
        exact .inr rfl

/-- A column's clause is on one line if the texts of its row are. -/
theorem Column.unbroken_define {table : String} {column : Column} {definition : ColumnDefinition}
    (h : column.define table = .ok definition) (hu : ∀ text ∈ column.texts, Unbroken text) :
    ∀ text ∈ definition.texts, Unbroken text := by
  simp only [define, bind_eq_ok_iff] at h
  obtain ⟨identity, hi, he⟩ := h
  cases he
  simp only [texts, List.forall_mem_append, List.forall_mem_cons] at hu
  obtain ⟨⟨-, hn, hd, hs, hc, -⟩, hv⟩ := hu
  simp only [ColumnDefinition.texts, List.forall_mem_append, List.forall_mem_cons, List.not_mem_nil,
    false_imp_iff, implies_true, and_true]
  refine ⟨⟨⟨hn, ?_⟩, ?_⟩, hv⟩
  · rw [type, DataType.render, unbroken_append_iff]
    exact ⟨hd, DataType.unbroken_suffix _ _ _ _⟩
  · intro text ht
    cases identity with
    | none => cases ht
    | some identity =>
      have ht : text = identity.seed ∨ text = identity.increment := by simpa using ht
      rcases texts_of_identity hi with rfl | rfl
      · rcases ht with rfl | rfl <;> decide
      · rcases ht with rfl | rfl
        · exact hs
        · exact hc

/-- The texts of a primary key are texts of its parts. -/
theorem PrimaryKey.mem_texts {table : String} {parts : List PrimaryKeyPart} {key : PrimaryKey}
    (h : ofParts table parts = .ok (some key)) :
    ∀ text ∈ key.texts, ∃ part ∈ parts, text ∈ part.texts := by
  obtain ⟨hne, hn, hc⟩ := ofParts_eq_some h
  obtain ⟨first, hf⟩ := List.exists_mem_of_ne_nil _ hne
  rw [texts, hc]
  refine List.forall_mem_cons.mpr ⟨⟨first,
    List.mem_of_mem_filter hf, by simp [PrimaryKeyPart.texts, hn first hf]⟩, ?_⟩
  refine List.forall_mem_map.mpr fun part hs => ?_
  exact ⟨part, List.mem_of_mem_filter (List.mem_mergeSort.mp hs), by simp [PrimaryKeyPart.texts]⟩

/-- The texts of a key are those of its parts. -/
theorem ForeignKey.mem_texts {table : String} {parts : List ForeignKeyPart} {keys : List ForeignKey}
    (h : ofParts table parts = .ok keys) {key : ForeignKey} (hk : key ∈ keys) :
    ∀ text ∈ key.texts, ∃ part ∈ parts, text ∈ part.texts := by
  obtain ⟨group, hg, hf⟩ := exists_item_of_mem h hk
  have hm : ∀ part ∈ group.items, part ∈ parts :=
      fun part hm => List.mem_of_mem_filter (mem_of_mem_groupsBy hg part hm)
  have hfirst := hm _ group.first_mem_items
  obtain ⟨-, rfl⟩ := eq_of_ofGroup hf
  simp only [texts, List.forall_mem_append, List.forall_mem_cons, List.not_mem_nil,
    false_imp_iff, implies_true, and_true, List.forall_mem_map]
  refine ⟨⟨⟨⟨_, hfirst, ?_⟩, ⟨_, hfirst, ?_⟩, ⟨_, hfirst, ?_⟩⟩, fun part hp => ⟨part, hm _ hp, ?_⟩⟩,
    fun part hp => ⟨part, hm _ hp, ?_⟩⟩ <;> simp [ForeignKeyPart.texts]

theorem Index.mem_texts {table : String} {parts : List IndexPart} {indexes : List Index}
    (h : ofParts table parts = .ok indexes) {index : Index} (hi : index ∈ indexes) :
    ∀ text ∈ index.texts, ∃ part ∈ parts, text ∈ part.texts := by
  obtain ⟨group, hg, hf⟩ := exists_item_of_mem h hi
  have hm : ∀ part ∈ group.items, part ∈ parts :=
      fun part hm => List.mem_of_mem_filter (mem_of_mem_groupsBy hg part hm)
  have hfirst := hm _ group.first_mem_items
  have hc : ∀ column ∈ (split group.items).1 ++ (split group.items).2, ∃ part ∈ parts,
      column ∈ part.texts := by
    intro column hs
    obtain ⟨part, hp, rfl⟩ := List.mem_map.mp ((split_perm group.items).mem_iff.mp hs)
    exact ⟨part, hm part hp, by simp [IndexPart.texts]⟩
  obtain ⟨-, rfl⟩ := eq_of_ofGroup hf
  rw [List.forall_mem_append] at hc
  simp only [texts, List.forall_mem_append, List.forall_mem_cons, List.not_mem_nil,
    false_imp_iff, implies_true, and_true]
  refine ⟨⟨⟨⟨_, hfirst, ?_⟩, ⟨_, hfirst, ?_⟩⟩, hc.1⟩, hc.2⟩ <;> simp [IndexPart.texts]

/-- The statements of a table quote no line feed if its columns and parts have none. -/
theorem TableDefinition.unbroken_statements {table : Table} {definition : TableDefinition}
    (h : table.define = .ok definition) (hn : Unbroken table.name)
    (hc : ∀ column ∈ table.columns, ∀ text ∈ column.texts, Unbroken text)
    (hp : ∀ part ∈ table.primaryKeyParts, ∀ text ∈ part.texts, Unbroken text)
    (hf : ∀ part ∈ table.foreignKeyParts, ∀ text ∈ part.texts, Unbroken text)
    (hi : ∀ part ∈ table.indexParts, ∀ text ∈ part.texts, Unbroken text) :
    ∀ s ∈ definition.statements, ∀ text ∈ s.texts, Unbroken text := by
  obtain ⟨hpk, hfk, hix, hcol, hname⟩ := Table.define_eq_ok h
  intro s hs text ht
  simp only [statements, List.mem_cons, List.mem_append, List.mem_map] at hs
  rcases hs with rfl | ⟨key, hk, rfl⟩ | ⟨index, hm, rfl⟩
  · simp only [Statement.texts, List.mem_cons, List.mem_append, List.mem_flatMap,
      Option.mem_toList] at ht
    rcases ht with rfl | ⟨column, hm, ht⟩ | ⟨key, hk, ht⟩
    · exact hname ▸ hn
    · obtain ⟨source, hsource, hd⟩ := exists_item_of_mem hcol hm
      exact Column.unbroken_define hd (hc source hsource) text ht
    · rw [hk] at hpk
      obtain ⟨part, hpart, ht⟩ := PrimaryKey.mem_texts hpk text ht
      exact hp part hpart text ht
  · obtain ⟨part, hpart, ht⟩ := ForeignKey.mem_texts hfk hk text ht
    exact hf part hpart text ht
  · obtain ⟨part, hpart, ht⟩ := Index.mem_texts hix hm text ht
    exact hi part hpart text ht

namespace Catalog

variable {c : Catalog}

theorem OneLine.unbroken_name (h : c.OneLine) {name : String} (hn : name ∈ c.tables.map (·.name)) :
    Unbroken name := by
  obtain ⟨column, hm, rfl⟩ := hasTable_iff.mp (mem_map_name_tables.mp hn)
  exact h.columns column hm _ (by simp [Column.texts])

theorem OneLine.unbroken_foreignKey (h : c.OneLine) {key : ForeignKeyName}
    (hk : key ∈ c.foreignKeyNames) :
    Unbroken key.table ∧ Unbroken key.name := by
  obtain ⟨part, hp, rfl⟩ := List.mem_map.mp (List.mem_eraseDups.mp hk)
  exact ⟨h.foreignKeys part hp _ (by simp [ForeignKeyPart.texts]),
    h.foreignKeys part hp _ (by simp [ForeignKeyPart.texts])⟩

/-- No text of a catalog breaks a line of a statement. -/
theorem OneLine.unbroken_of_define (h : c.OneLine) {table : Table} (ht : table ∈ c.tables)
    {definition : TableDefinition} (hd : table.define = .ok definition) :
    ∀ s ∈ definition.statements, ∀ text ∈ s.texts, Unbroken text := by
  have he := eq_table_of_mem ht
  have hn := h.unbroken_name (List.mem_map_of_mem ht)
  refine TableDefinition.unbroken_statements hd hn ?_ ?_ ?_ ?_
  · intro column hm
    rw [he] at hm
    exact h.columns column (List.mem_of_mem_filter (List.mem_mergeSort.mp hm))
  · intro part hm
    rw [he] at hm
    exact h.primaryKeys part (List.mem_of_mem_filter hm)
  · intro part hm
    rw [he] at hm
    exact h.foreignKeys part (List.mem_of_mem_filter hm)
  · intro part hm
    rw [he] at hm
    exact h.indexes part (List.mem_of_mem_filter hm)

end Catalog

namespace Script

variable {c : Catalog} {settings : Settings} {schema : Schema} {script : Script}

theorem unbroken_dropStatements (h : c.OneLine) (hs : c.schema = .ok schema) :
    ∀ s ∈ schema.dropStatements, ∀ text ∈ s.texts, Unbroken text := by
  have hr (kind : Routine.Kind) :
      ∀ s ∈ schema.routineDropStatements kind, ∀ text ∈ s.texts, Unbroken text := by
    refine List.forall_mem_map.mpr fun routine hm => ?_
    rw [Catalog.routines_of_schema hs] at hm
    simpa [Statement.texts] using h.routines kind routine hm
  obtain ⟨-, hschema⟩ := Catalog.schema_eq_ok hs
  have hk : ∀ s ∈ schema.foreignKeys.map Statement.dropForeignKey, ∀ text ∈ s.texts,
      Unbroken text := by
    refine List.forall_mem_map.mpr fun key hm => ?_
    rw [hschema] at hm
    simpa [Statement.texts] using h.unbroken_foreignKey hm
  have ht : ∀ s ∈ schema.tableDropStatements, ∀ text ∈ s.texts, Unbroken text := by
    refine List.forall_mem_map.mpr fun table hm => ?_
    rw [hschema] at hm
    simpa [Statement.texts] using h.unbroken_name (List.mem_map_of_mem (List.mem_reverse.mp hm))
  simp only [Schema.dropStatements, List.forall_mem_append]
  exact ⟨⟨⟨hk, ht⟩, hr .procedure⟩, hr .view⟩

/-- No statement of a script quotes a text with a line feed. -/
theorem unbroken_statements (h : c.OneLine) (hs : c.schema = .ok schema)
    (hw : ofSchema settings schema = .ok script)
    (hd : ∀ database ∈ settings.database, Unbroken database) :
    ∀ s ∈ script.statements, ∀ text ∈ s.texts, Unbroken text := by
  obtain ⟨hset, hsch⟩ := settings_and_schema hw
  have hso := sources_remaining (Catalog.schema_wellFormed hs) hw
  rw [statements_eq, earlyStatements, hset, hsch]
  simp only [List.forall_mem_append]
  refine ⟨⟨⟨?_, unbroken_dropStatements h hs⟩, ?_⟩, ?_⟩
  · intro s hm
    cases hb : settings.database with
    | none => simp [usePieces, hb] at hm
    | some database =>
      simp only [usePieces, hb, Piece.statements_cons, Piece.statement?, Piece.statements_nil,
        Option.toList_some, Option.toList_none, List.append_nil, List.mem_singleton] at hm
      subst hm
      simpa [Statement.texts] using hd database hb
  · intro s hm
    obtain ⟨table, ht, hm⟩ := List.mem_flatMap.mp hm
    obtain ⟨source, hsource, hdefine⟩ := exists_item_of_mem hso.defined ht
    have hst := hso.sublist.subset hsource
    rw [hsch, (Catalog.schema_eq_ok hs).2] at hst
    exact h.unbroken_of_define hst hdefine s hm
  · refine List.forall_mem_map.mpr fun routine hm => ?_
    have hr : ∃ kind, routine ∈ script.schema.routines kind := by
      rcases List.mem_append.mp hm with hm | hm
      · exact ⟨.procedure, hm⟩
      · exact ⟨.view, hm⟩
    obtain ⟨kind, hm⟩ := hr
    rw [hsch, Catalog.routines_of_schema hs] at hm
    simpa [Statement.texts] using h.routines kind routine hm

end Script
end CatalogDdl
