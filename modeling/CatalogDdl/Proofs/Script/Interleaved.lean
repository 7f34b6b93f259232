import CatalogDdl.Proofs.Schema.Interleaved
import CatalogDdl.Proofs.Script.Created

/-!
# Scripts of catalogs that interleave their tables differently

However the rows of different tables are interleaved, the script is refused for the same defect, or
it creates the same tables, leaves out the same ones for the same reasons and counts the same
objects. Its text differs at most in the order in which the foreign keys are dropped.
-/
namespace CatalogDdl

theorem Schema.Alike.countsWhere_eq {s t : Schema} (h : s.Alike t) (keep : Table → Bool) :
    s.countsWhere keep = t.countsWhere keep := by
  simp only [countsWhere, h.tables, h.procedures, h.views, h.foreignKeys.countP_eq]

namespace Script

variable {settings : Settings} {s t : Schema}

/-- The script as it would be for another schema with the same tables. -/
def onSchema (script : Script) (schema : Schema) : Script := { script with schema }

@[simp] theorem onSchema_skipped (script : Script) (schema : Schema) :
    (script.onSchema schema).skipped = script.skipped := rfl

@[simp] theorem onSchema_schema (script : Script) (schema : Schema) :
    (script.onSchema schema).schema = schema := rfl

/-- What a script creates and leaves out depends on the tables of its schema only. -/
theorem ofSchema_onSchema (h : s.tables = t.tables) :
    ofSchema settings t = (ofSchema settings s).map (·.onSchema t) := by
  cases hp : settings.onDefect with
  | skip =>
    rw [ofSchema_skip hp, ofSchema_skip hp]
    simp only [leavingOut, onSchema, Except.map, h]
  | refuse =>
    simp only [ofSchema, hp, h]
    cases t.tables.mapM Table.define <;> rfl

theorem counts_onSchema (script : Script) (h : script.schema.Alike t) :
    (script.onSchema t).counts = script.counts := (h.countsWhere_eq _).symm

def opening (script : Script) : String :=
  script.settings.head script.counts.tables script.schema.procedures.length
    script.schema.views.length
    ++ script.settings.useBatch ++ heading "DROP EXISTING OBJECTS" ++ "-- Drop foreign keys first\n"

def remainder (script : Script) : String :=
  "\n-- Drop tables\n" ++ String.join (script.schema.tables.reverse.map (·.dropSql))
    ++ script.schema.routineDrops .procedure ++ script.schema.routineDrops .view
    ++ "\n" ++ script.settings.separator ++ "\n\n"
    ++ heading "CREATE TABLES" ++ String.join (script.tables.map (·.sql))
    ++ script.settings.separator ++ "\n\n"
    ++ Routine.Kind.procedure.batches script.settings.separator script.schema.procedures
    ++ Routine.Kind.view.batches script.settings.separator script.schema.views

theorem text_eq_around_drops (script : Script) : script.text =
    script.opening ++ String.join (script.schema.foreignKeys.map (·.dropSql))
      ++ script.remainder := by
  unfold text Schema.drops opening remainder
  simp only [String.append_assoc]

theorem opening_onSchema (script : Script) (h : script.schema.Alike t) :
    (script.onSchema t).opening = script.opening := by
  unfold opening
  rw [counts_onSchema script h]
  simp only [onSchema, h.procedures, h.views]

theorem remainder_onSchema (script : Script) (h : script.schema.Alike t) :
    (script.onSchema t).remainder = script.remainder := by
  unfold remainder Schema.routineDrops Schema.routines
  simp only [onSchema, h.tables, h.procedures, h.views]

/-- How the rows of different tables are interleaved makes no difference. Either both catalogs have
a schema or none has, and then the tables are the same and the foreign keys too, up to their order.
Under all settings both scripts are refused for the same defect, or they have the same counts and
skips, and texts that are the same around the drops of the foreign keys. -/
theorem interleaving_irrelevant {c d : Catalog} (h : c.Interleaved d) :
    ((∃ defect, c.schema = .error defect) ∧ ∃ defect, d.schema = .error defect) ∨
    ∃ schema other, c.schema = .ok schema ∧ d.schema = .ok other ∧
      schema.tables = other.tables ∧ schema.foreignKeys.Perm other.foreignKeys ∧
      ∀ settings, (∃ defect, ofSchema settings schema = .error defect ∧
        ofSchema settings other = .error defect) ∨
        ∃ script twin before after, ofSchema settings schema = .ok script ∧
        ofSchema settings other = .ok twin ∧
          script.counts = twin.counts ∧ script.skipped = twin.skipped ∧
          script.text = before ++ String.join (schema.foreignKeys.map (·.dropSql)) ++ after ∧
          twin.text = before ++ String.join (other.foreignKeys.map (·.dropSql)) ++ after := by
  rcases h.alike with he | ⟨schema, other, hs, ho, ha⟩
  · exact .inl he
  refine .inr ⟨schema, other, hs, ho, ha.tables, ha.foreignKeys, fun settings => ?_⟩
  have ht : ofSchema settings other = (ofSchema settings schema).map (·.onSchema other) :=
      ofSchema_onSchema ha.tables
  cases hw : ofSchema settings schema with
  | error defect =>
    rw [hw] at ht
    exact .inl ⟨defect, rfl, ht⟩
  | ok script =>
    rw [hw] at ht
    have hsc := (settings_and_schema hw).2
    rw [← hsc] at ha
    refine .inr ⟨script, script.onSchema other, script.opening, script.remainder, rfl, ht,
      (counts_onSchema script ha).symm, (onSchema_skipped script other).symm, ?_, ?_⟩
    · rw [text_eq_around_drops, hsc]
    · rw [text_eq_around_drops, opening_onSchema script ha, remainder_onSchema script ha,
        onSchema_schema]

/-- The sample and its reordering have schemas with the same tables, and under skips scripts with
the same counts. -/
theorem interleaving_sample : Catalog.sample.Interleaved Catalog.rewoven ∧
    ∃ schema other, Catalog.sample.schema = .ok schema ∧ Catalog.rewoven.schema = .ok other ∧
      schema.tables = other.tables ∧
      ∃ script twin, ofSchema skipping schema = .ok script ∧ ofSchema skipping other = .ok twin ∧
        script.counts = twin.counts := by
  refine ⟨Catalog.interleaved_rewoven, ?_⟩
  rcases interleaving_irrelevant Catalog.interleaved_rewoven with ⟨⟨defect, he⟩, -⟩ | ⟨schema,
    other, hs, ho, ht, -, hw⟩
  · rw [Catalog.schema_sample] at he
    cases he
  · rcases hw skipping with ⟨defect, he, -⟩ | ⟨script, twin, -, -, h₁, h₂, hc, -⟩
    · cases he
    · exact ⟨schema, other, hs, ho, ht, script, twin, h₁, h₂, hc⟩

end Script
end CatalogDdl
