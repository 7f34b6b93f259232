import CatalogDdl.Proofs.Script.Created

/-!
# The order of statements

A script drops foreign keys before tables, drops an orderable table before the tables it refers to,
and creates it after them. Without a cycle of references each statement finds the tables it needs.
-/
namespace CatalogDdl

/-- In the list, the items of the first sort all stand before those of the second. -/
def Precede {α : Type} (items : List α) (first second : α → Prop) : Prop :=
  items.Pairwise fun earlier later => second earlier → ¬ first later

section Precede

variable {α : Type} {items : List α} {first second : α → Prop}

theorem precede_nil : Precede [] first second := .nil

/-- Items that are not of the second sort may stand in front. -/
theorem Precede.after {before : List α} (h : Precede items first second)
    (hb : ∀ x ∈ before, ¬ second x) :
    Precede (before ++ items) first second := by
  refine List.pairwise_append.mpr ⟨?_, h, fun x hx _ _ hs => absurd hs (hb x hx)⟩
  exact List.pairwise_of_forall_mem_list fun x hx _ _ hs => absurd hs (hb x hx)

/-- Items that are not of the first sort may stand behind. -/
theorem Precede.before {after : List α} (h : Precede items first second)
    (ha : ∀ x ∈ after, ¬ first x) :
    Precede (items ++ after) first second := by
  refine List.pairwise_append.mpr ⟨h, ?_, fun _ _ y hy _ => ha y hy⟩
  exact List.pairwise_of_forall_mem_list fun _ _ y hy _ => ha y hy

end Precede

/-- A place in joined lists is a place in one of them. -/
theorem flatMap_eq_append_cons {α β : Type} {f : α → List β} {items : List α}
    {before after : List β} {b : β} (h : items.flatMap f = before ++ b :: after) :
    ∃ others item rest inner outer,
      items = others ++ item :: rest ∧ f item = inner ++ b :: outer ∧
      before = others.flatMap f ++ inner := by
  induction items generalizing before with
  | nil => simp at h
  | cons item rest ih =>
    rw [List.flatMap_cons, List.append_eq_append_iff] at h
    rcases h with ⟨tail, rfl, ht⟩ | ⟨tail, hf, ht⟩
    · obtain ⟨others, found, more, inner, outer, rfl, hi, rfl⟩ := ih ht
      exact ⟨item :: others, found, more, inner, outer, rfl, hi, by simp⟩
    · cases tail with
      | nil =>
        have hr : rest.flatMap f = [] ++ b :: after := by simpa using ht.symm
        obtain ⟨others, found, more, inner, outer, rfl, hi, hb⟩ := ih hr
        refine ⟨item :: others, found, more, inner, outer, rfl, hi, ?_⟩
        rw [List.flatMap_cons, List.append_assoc, ← hb, List.append_nil, hf, List.append_nil]
      | cons first tail =>
        simp only [List.cons_append, List.cons.injEq] at ht
        obtain ⟨rfl, rfl⟩ := ht
        exact ⟨[], item, rest, before, tail, rfl, hf, rfl⟩

namespace Script
open DeclaredOrder

variable {c : Catalog} {settings : Settings} {schema : Schema} {script : Script}

/-- No orderable table of a schema stands before a table it refers to. -/
theorem names_pairwise (hs : c.schema = .ok schema) : (schema.tables.map (·.name)).Pairwise
    fun earlier later => Orderable c.foreignKeys earlier →
    ¬ Refers c.foreignKeys earlier later := by
  obtain ⟨-, rfl⟩ := Catalog.schema_eq_ok hs
  rw [Catalog.map_name_tables]
  exact declaredOrder_pairwise _ _

/-- Both tables of a reference are in the schema. -/
theorem mem_of_refers (hs : c.schema = .ok schema) {table referenced : String}
    (h : Refers c.foreignKeys table referenced) :
    table ∈ schema.tables.map (·.name) ∧ referenced ∈ schema.tables.map (·.name) := by
  obtain ⟨hd, rfl⟩ := Catalog.schema_eq_ok hs
  obtain ⟨part, hp, rfl, rfl, -⟩ := h
  obtain ⟨ht, hr⟩ := Catalog.hasTable_of_mem_foreignKeys hd hp
  exact ⟨Catalog.mem_map_name_tables.mpr ht, Catalog.mem_map_name_tables.mpr hr⟩

/-- A foreign key of a created table stands for a reference of the catalog. -/
theorem refers_of_created (hs : c.schema = .ok schema) (hw : ofSchema settings schema = .ok script)
    {table : TableDefinition} (ht : table ∈ script.tables) {key : ForeignKey}
    (hk : key ∈ table.foreignKeys) :
    key.table = table.name ∧
      (key.referencedTable ≠ table.name → Refers c.foreignKeys table.name key.referencedTable) := by
  obtain ⟨sources, hso⟩ := exists_sources (Catalog.schema_wellFormed hs) hw
  obtain ⟨source, hm, hd⟩ := exists_item_of_mem hso.defined ht
  obtain ⟨ho, part, hp, hpt, -, hr⟩ := ForeignKey.exists_part (Table.define_eq_ok hd).2.1 hk
  rw [Table.name_of_define hd]
  refine ⟨ho, fun hne => ⟨part, ?_, hpt, hr, hne⟩⟩
  have hst := hso.sublist.subset hm
  rw [(settings_and_schema hw).2, (Catalog.schema_eq_ok hs).2] at hst
  exact ((Catalog.mem_foreignKeyParts hst).mp hp).1

/-- What a foreign key of an orderable table refers to is the table itself or was created in an
earlier block. -/
theorem referenced_before (hs : c.schema = .ok schema) (hw : ofSchema settings schema = .ok script)
    {before after : List TableDefinition} {table : TableDefinition}
    (ht : script.tables = before ++ table :: after)
    (ho : Orderable c.foreignKeys table.name) {key : ForeignKey} (hk : key ∈ table.foreignKeys) :
    key.referencedTable = table.name ∨ ∃ other ∈ before, other.name = key.referencedTable := by
  obtain ⟨sources, hso⟩ := exists_sources (Catalog.schema_wellFormed hs) hw
  have hm : table ∈ script.tables := by simp [ht]
  obtain ⟨other, hom, hn⟩ := hso.referenced_created hm hk
  by_cases hself : key.referencedTable = table.name
  · exact .inl hself
  · have hr := (refers_of_created hs hw hm hk).2 hself
    have hp : (script.tables.map (·.name)).Pairwise
        fun earlier later => Orderable c.foreignKeys earlier →
        ¬ Refers c.foreignKeys earlier later := by
      rw [hso.map_name]
      exact ((settings_and_schema hw).2 ▸ names_pairwise hs).sublist (hso.sublist.map _)
    rw [ht, List.map_append, List.map_cons, List.pairwise_append, List.pairwise_cons] at hp
    rw [ht, List.mem_append, List.mem_cons] at hom
    rcases hom with hb | rfl | ha
    · exact .inr ⟨other, hb, hn⟩
    · exact absurd hn.symm hself
    · exact absurd (hn ▸ hr) (hp.2.1.1 other.name (List.mem_map_of_mem ha) ho)

/-- The statements in front of the drops of foreign keys. -/
theorem not_drop_of_mem_use {s : Statement} (h : s ∈ Piece.statements (usePieces settings)) :
    (∀ key, s ≠ .dropForeignKey key) ∧ ∀ table, s ≠ .dropTable table := by
  cases hd : settings.database with
  | none => simp [usePieces, hd] at h
  | some database =>
    have hs : s = .use database := by simpa [usePieces, hd, Piece.statement?] using h
    simp [hs]

def lateStatements (script : Script) : List Statement :=
  script.schema.routineDropStatements .procedure ++ script.schema.routineDropStatements .view
    ++ script.createStatements ++ script.routineStatements

/-- No key and no table is dropped behind the drops of tables. -/
theorem not_drop_of_mem_late {s : Statement} (h : s ∈ script.lateStatements) :
    (∀ key, s ≠ .dropForeignKey key) ∧ ∀ table, s ≠ .dropTable table := by
  simp only [lateStatements, List.mem_append] at h
  rcases h with ((h | h) | h) | h
  · obtain ⟨_, -, rfl⟩ := List.mem_map.mp h
    simp
  · obtain ⟨_, -, rfl⟩ := List.mem_map.mp h
    simp
  · have hc := isCreation_of_mem_create h
    cases s <;> simp_all [Statement.isCreation]
  · obtain ⟨_, -, rfl⟩ := List.mem_map.mp h
    simp

theorem statements_eq_drops (script : Script) :
    script.statements = Piece.statements (usePieces script.settings)
    ++ (script.schema.foreignKeys.map .dropForeignKey ++ script.schema.tableDropStatements)
    ++ script.lateStatements := by
  simp only [statements_eq, earlyStatements, lateStatements, Schema.dropStatements,
    List.append_assoc]

/-- Every drop of a foreign key stands before every drop of a table. -/
theorem foreignKey_drops_precede (script : Script) :
    Precede script.statements (∃ key, · = .dropForeignKey key) (∃ table, · = .dropTable table) := by
  rw [statements_eq_drops]
  have ht : Precede script.schema.tableDropStatements (∃ key, · = .dropForeignKey key)
      (∃ table, · = .dropTable table) := by
    refine precede_nil.before fun s hs => ?_
    obtain ⟨_, -, rfl⟩ := List.mem_map.mp hs
    simp
  refine ((ht.after ?_).after ?_).before ?_
  · intro s hs
    obtain ⟨_, -, rfl⟩ := List.mem_map.mp hs
    simp
  · rintro s hs ⟨table, h⟩
    exact (not_drop_of_mem_use hs).2 table h
  · rintro s hs ⟨key, h⟩
    exact (not_drop_of_mem_late hs).1 key h

/-- The drop of an orderable table stands before the drop of every table it refers to. -/
theorem table_drops_precede (hs : c.schema = .ok schema)
    (hw : ofSchema settings schema = .ok script) {table referenced : String}
    (ho : Orderable c.foreignKeys table) (hr : Refers c.foreignKeys table referenced) :
    Precede script.statements (· = .dropTable table) (· = .dropTable referenced) := by
  rw [statements_eq_drops, (settings_and_schema hw).2]
  have ht :
      Precede schema.tableDropStatements (· = .dropTable table) (· = .dropTable referenced) := by
    have hp := names_pairwise hs
    rw [List.pairwise_map] at hp
    refine List.pairwise_map.mpr ((List.pairwise_reverse.mpr hp).imp fun h he hl => ?_)
    simp only [Statement.dropTable.injEq] at he hl
    rw [he, hl] at h
    exact h ho hr
  refine ((ht.after ?_).after ?_).before ?_
  · intro s hs
    obtain ⟨_, -, rfl⟩ := List.mem_map.mp hs
    simp
  · intro s hs
    exact (not_drop_of_mem_use hs).2 referenced
  · intro s hs
    exact (not_drop_of_mem_late hs).2 table

theorem dropTable_mem_statements {name : String} :
    .dropTable name ∈ script.statements ↔ name ∈ script.schema.tables.map (·.name) := by
  have hu : .dropTable name ∉ Piece.statements (usePieces script.settings) :=
    fun h => (not_drop_of_mem_use h).2 name rfl
  have hl : .dropTable name ∉ script.lateStatements := fun h => (not_drop_of_mem_late h).2 name rfl
  simp [statements_eq_drops, Schema.tableDropStatements, hu, hl]

theorem index_table_eq (hs : c.schema = .ok schema) (hw : ofSchema settings schema = .ok script)
    {table : TableDefinition} (ht : table ∈ script.tables) {index : Index}
    (hi : index ∈ table.indexes) :
    index.table = table.name := by
  obtain ⟨sources, hso⟩ := exists_sources (Catalog.schema_wellFormed hs) hw
  obtain ⟨source, -, hd⟩ := exists_item_of_mem hso.defined ht
  rw [Table.name_of_define hd]
  exact Index.table_eq (Table.define_eq_ok hd).2.2.1 hi

/-- If every created table is orderable, each statement comes after the creation of the tables it
needs. -/
theorem needs_created (hc : c.schema = .ok schema) (hw : ofSchema settings schema = .ok script)
    (ho : ∀ table, Orderable c.foreignKeys table) {before after : List Statement} {s : Statement}
    (h : script.createStatements = before ++ s :: after) :
    ∀ name ∈ s.needs, ∃ table, .createTable table ∈ before ∧ table.name = name := by
  obtain ⟨others, item, rest, inner, outer, ht, hi, rfl⟩ := flatMap_eq_append_cons h
  have hm : item ∈ script.tables := by simp [ht]
  intro name hn
  cases inner with
  | nil =>
    -- The first statement of a block creates its table and needs no other.
    simp only [TableDefinition.statements, List.nil_append, List.cons.injEq] at hi
    rw [← hi.1] at hn
    cases hn
  | cons first inner =>
    simp only [TableDefinition.statements, List.cons_append, List.cons.injEq] at hi
    obtain ⟨rfl, hi⟩ := hi
    have hown :
        .createTable item ∈ others.flatMap TableDefinition.statements
          ++ .createTable item :: inner := by simp
    have hmem :
        s ∈ item.foreignKeys.map Statement.addForeignKey
          ++ item.indexes.map .createIndex := by simp [hi]
    rcases List.mem_append.mp hmem with hs | hs
    · obtain ⟨key, hk, rfl⟩ := List.mem_map.mp hs
      have hkt := (refers_of_created hc hw hm hk).1
      simp only [Statement.needs, List.mem_cons, List.not_mem_nil, or_false] at hn
      rcases hn with rfl | rfl
      · exact ⟨item, hown, hkt.symm⟩
      · rcases referenced_before hc hw ht (ho _) hk with hself | ⟨other, hb, hr⟩
        · exact ⟨item, hown, hself.symm⟩
        · refine ⟨other, List.mem_append_left _ (List.mem_flatMap.mpr ⟨other, hb, ?_⟩), hr⟩
          simp [TableDefinition.statements]
    · obtain ⟨index, hx, rfl⟩ := List.mem_map.mp hs
      have hit := index_table_eq hc hw hm hx
      simp only [Statement.needs, List.mem_cons, List.not_mem_nil, or_false] at hn
      exact ⟨item, hown, by rw [hn, hit]⟩

/-- The order of a script, under either policy. What a foreign key of an orderable table refers to
is the table itself or was created in an earlier block. Foreign keys are dropped before tables, and
an orderable table before the tables it refers to. Without a cycle of references each statement that
creates or adds something comes after the creation of the tables it needs. -/
theorem statements_respect_references (hs : c.schema = .ok schema)
    (hw : ofSchema settings schema = .ok script) :
    script.text = Piece.texts settings.separator script.pieces ∧
    script.statements = script.earlyStatements ++ script.createStatements
      ++ script.routineStatements ∧
    (∀ before table after, script.created = before ++ table :: after →
      Orderable c.foreignKeys table.name →
      ∀ key ∈ table.foreignKeys, key.table = table.name ∧
        (key.referencedTable = table.name ∨ ∃ other ∈ before, other.name = key.referencedTable)) ∧
    Precede script.statements (∃ key, · = .dropForeignKey key) (∃ table, · = .dropTable table) ∧
    (∀ table referenced, Orderable c.foreignKeys table → Refers c.foreignKeys table referenced →
      .dropTable table ∈ script.statements ∧ .dropTable referenced ∈ script.statements ∧
      Precede script.statements (· = .dropTable table) (· = .dropTable referenced)) ∧
    ((∀ table, ¬ Relation.TransGen (Refers c.foreignKeys) table table) →
      ∀ before s after, script.createStatements = before ++ s :: after →
        ∀ name ∈ s.needs, ∃ table, .createTable table ∈ before ∧ table.name = name) := by
  obtain ⟨hset, hsch⟩ := settings_and_schema hw
  refine ⟨hset ▸ text_eq_texts script, statements_eq script, ?_, foreignKey_drops_precede script,
    ?_, ?_⟩
  · intro before table after ht ho key hk
    rw [created_eq] at ht
    exact ⟨(refers_of_created hs hw (by simp [ht]) hk).1, referenced_before hs hw ht ho hk⟩
  · intro table referenced ho hr
    obtain ⟨ht, hrt⟩ := mem_of_refers hs hr
    rw [dropTable_mem_statements, dropTable_mem_statements, hsch]
    exact ⟨ht, hrt, table_drops_precede hs hw ho hr⟩
  · intro ha before s after h
    exact needs_created hs hw (orderable_of_acyclic ha) h

/-- The script of the sample with skips drops foreign keys before tables, and an orderable table
before those it refers to. -/
theorem respect_references_sample : ∃ script, Catalog.sample.schema = .ok Catalog.sampleSchema ∧
    ofSchema skipping Catalog.sampleSchema = .ok script ∧
    Precede script.statements (∃ key, · = .dropForeignKey key) (∃ table, · = .dropTable table) ∧
    ∀ table referenced, Orderable Catalog.sample.foreignKeys table →
      Refers Catalog.sample.foreignKeys table referenced →
      Precede script.statements (· = .dropTable table) (· = .dropTable referenced) := by
  have hw : ofSchema skipping Catalog.sampleSchema =
      .ok (leavingOut skipping Catalog.sampleSchema) := rfl
  obtain ⟨-, -, -, hk, ht, -⟩ := statements_respect_references Catalog.schema_sample hw
  exact ⟨_, Catalog.schema_sample, hw, hk,
    fun table referenced ho hr => (ht table referenced ho hr).2.2⟩

end Script
end CatalogDdl
