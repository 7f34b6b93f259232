import CatalogDdl.Proofs.Schema.Build
import CatalogDdl.Proofs.Script.Definition
import CatalogDdl.Proofs.Script.Skip
import CatalogDdl.Proofs.Script.Statement

/-!
# What a script creates

A script creates some of the tables of its schema, in declared order, and these refer to each other
only. When defective tables are skipped, the tables that are missing are the least set that has to
be.
-/
namespace CatalogDdl.Script

/-- The tables whose definitions a script creates. -/
structure Sources (script : Script) (sources : List Table) : Prop where
  sublist : sources.Sublist script.schema.tables
  defined : sources.mapM Table.define = .ok script.tables
  referenced :
    ∀ table ∈ sources, ∀ part ∈ table.foreignKeyParts, part.referencedTable ∈ sources.map (·.name)

variable {settings : Settings} {schema : Schema} {script : Script} {sources : List Table}

theorem ofSchema_refuse (hp : settings.onDefect = .refuse)
    (h : ofSchema settings schema = .ok script) :
    schema.tables.mapM Table.define = .ok script.tables ∧
    script = ⟨settings, schema, script.tables, []⟩ := by
  simp only [ofSchema, hp, bind_eq_ok_iff] at h
  obtain ⟨tables, ht, hs⟩ := h
  cases hs
  exact ⟨ht, rfl⟩

/-- Unless defective tables are skipped, the first one refuses the script. -/
theorem ofSchema_refuse_eq_error_iff (hp : settings.onDefect = .refuse) {defect : Defect} :
    ofSchema settings schema = .error defect ↔ FirstError Table.define schema.tables defect := by
  simp only [ofSchema, hp, bind_eq_error_iff, mapM_eq_error_iff, pure, Except.pure,
    reduceCtorEq, and_false, exists_false, or_false]

theorem ofSchema_skip (hp : settings.onDefect = .skip) :
    ofSchema settings schema = .ok (leavingOut settings schema) := by
  simp only [ofSchema, hp]

/-- Without a defective table there is a script under either policy, and it leaves nothing out. -/
theorem ofSchema_eq_of_defined
    (h : ∀ table ∈ schema.tables, ∃ definition, table.define = .ok definition) :
    ofSchema settings schema =
      .ok ⟨settings, schema, (Skip.drafts schema.tables).map (·.definition), []⟩ := by
  cases hp : settings.onDefect with
  | skip => rw [ofSchema_skip hp, leavingOut, Skip.select_of_defined h]
  | refuse =>
    have hm := Skip.mapM_define_filter (p := fun _ => true) fun table ht _ => h table ht
    rw [List.filter_true, List.filter_true] at hm
    simp only [ofSchema, hp, hm]
    rfl

theorem ofSchema_of_defined
    (h : ∀ table ∈ schema.tables, ∃ definition, table.define = .ok definition) :
    ∃ tables, ∀ settings, ofSchema settings schema = .ok ⟨settings, schema, tables, []⟩ :=
  ⟨_, fun _ => ofSchema_eq_of_defined h⟩

theorem exists_script_stocked : ∃ tables, ∀ settings, ofSchema settings Catalog.stockedSchema =
    .ok ⟨settings, Catalog.stockedSchema, tables, []⟩ := by
  -- Only the tables need be sorted before the rest is evaluated.
  obtain ⟨tables, ht, hd⟩ : ∃ tables, Catalog.stockedSchema.tables = tables ∧
      (tables.mapM Table.define).isOk = true := ⟨_, by cbv, by decide +kernel⟩
  rw [← ht, isOk_iff] at hd
  exact ofSchema_of_defined (exists_mapM_iff.mp hd)

/-- A script keeps what it was made of. -/
theorem settings_and_schema (h : ofSchema settings schema = .ok script) :
    script.settings = settings ∧ script.schema = schema := by
  cases hp : settings.onDefect with
  | refuse =>
    rw [(ofSchema_refuse hp h).2]
    exact ⟨rfl, rfl⟩
  | skip =>
    rw [ofSchema_skip hp] at h
    cases h
    exact ⟨rfl, rfl⟩

/-- A table that is not left out refers to no table that is. -/
theorem leavingOut_sources (hw : schema.WellFormed) : Sources (leavingOut settings schema)
    (schema.tables.filter fun table =>
      table.name ∉ Skip.names (Skip.select schema.tables).left) where
  sublist := List.filter_sublist
  defined := Skip.mapM_define_kept hw.nodup
  referenced table ht part hp := by
    obtain ⟨hm, hl⟩ := List.mem_filter.mp ht
    have hl : table.name ∉ Skip.names (Skip.select schema.tables).left := by simpa using hl
    have hr : part.referencedTable ∉ Skip.names (Skip.select schema.tables).left := by
      by_cases hs : part.referencedTable = table.name
      · exact hs ▸ hl
      · exact fun h => hl ((Skip.isLeast_left hw.nodup).1.absorbs table hm part hp hs h)
    obtain ⟨other, ho, he⟩ := List.mem_map.mp (hw.referenced table hm part hp)
    exact List.mem_map.mpr ⟨other, List.mem_filter.mpr ⟨ho, by simpa [he] using hr⟩, he⟩

/-- The tables of the schema that a script does not leave out. -/
def remaining (script : Script) : List Table :=
  script.schema.tables.filter fun table => table.name ∉ Skip.names script.skipped

/-- A script creates the tables that it does not leave out. -/
theorem sources_remaining (hw : schema.WellFormed) (h : ofSchema settings schema = .ok script) :
    Sources script script.remaining := by
  cases hp : settings.onDefect with
  | refuse =>
    obtain ⟨hd, hs⟩ := ofSchema_refuse hp h
    have hr : script.remaining = schema.tables := by
      rw [hs]
      simp [remaining]
    rw [hr, hs]
    exact ⟨.refl _, hd, hw.referenced⟩
  | skip =>
    rw [ofSchema_skip hp] at h
    cases h
    exact leavingOut_sources hw

/-- Every script has the tables it creates from its schema. -/
theorem exists_sources (hw : schema.WellFormed) (h : ofSchema settings schema = .ok script) :
    ∃ sources, Sources script sources := ⟨_, sources_remaining hw h⟩

namespace Sources

/-- The definitions have the names of the tables. -/
theorem map_name (h : Sources script sources) : script.tables.map (·.name) = sources.map (·.name) :=
  map_results_eq h.defined fun _ _ _ => Table.name_of_define

theorem nodup (h : Sources script sources) (hw : script.schema.WellFormed) :
    (script.tables.map (·.name)).Nodup := by
  rw [h.map_name]
  exact (h.sublist.map _).nodup hw.nodup

/-- A foreign key of a created table refers to a created table. -/
theorem referenced_created (h : Sources script sources) {table : TableDefinition}
    (ht : table ∈ script.tables) {key : ForeignKey} (hk : key ∈ table.foreignKeys) :
    ∃ other ∈ script.tables, other.name = key.referencedTable := by
  obtain ⟨source, hs, hd⟩ := exists_item_of_mem h.defined ht
  obtain ⟨-, part, hp, -, -, hr⟩ := ForeignKey.exists_part (Table.define_eq_ok hd).2.1 hk
  have hm := h.referenced source hs part hp
  rw [hr, ← h.map_name] at hm
  exact List.mem_map.mp hm

end Sources

def skipping : Settings := { onDefect := .skip }

example : Skip.names (Skip.select Catalog.sampleSchema.tables).left = ["A", "B", "C"] := by cbv

end CatalogDdl.Script
