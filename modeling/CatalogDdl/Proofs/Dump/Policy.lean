import CatalogDdl.Dump.Basic
import CatalogDdl.Proofs.Script.Created

/-!
# What a defective table does to a script

A dump without a schema has no script under either policy, for the same error. Otherwise skips
always lead to a script, and without them the first defective table refuses it. Where no table is
defective the policy makes no difference.
-/
namespace CatalogDdl.Dump

variable {dump : Dump} {settings : Settings} {schema : Schema}

theorem schema_eq_error_iff {delimiter : Char} {error : Error} :
    dump.schema delimiter = .error error ↔
    dump.catalog delimiter = .error error ∨ ∃ catalog, dump.catalog delimiter = .ok catalog ∧
      ∃ defect, catalog.schema = .error defect ∧ error = .defect defect := by
  simp only [Dump.schema, bind_eq_error_iff, mapError_eq_error_iff]

theorem script_eq_error_iff {error : Error} : dump.script settings = .error error ↔
    dump.schema settings.delimiter = .error error ∨
      ∃ schema, dump.schema settings.delimiter = .ok schema ∧
      ∃ defect, Script.ofSchema settings schema = .error defect ∧ error = .defect defect := by
  simp only [script, bind_eq_error_iff, mapError_eq_error_iff]

theorem script_skip_eq_error_iff (hp : settings.onDefect = .skip) {error : Error} :
    dump.script settings = .error error ↔ dump.schema settings.delimiter = .error error := by
  simp only [script_eq_error_iff, Script.ofSchema_skip hp, reduceCtorEq, false_and, exists_false,
    and_false, or_false]

theorem script_refuse_eq_error_iff (hp : settings.onDefect = .refuse) {error : Error} :
    dump.script settings = .error error ↔
      dump.schema settings.delimiter = .error error ∨
        ∃ schema, dump.schema settings.delimiter = .ok schema ∧
        ∃ defect, FirstError Table.define schema.tables defect ∧ error = .defect defect := by
  simp only [script_eq_error_iff, Script.ofSchema_refuse_eq_error_iff hp]

/-- A script is refused if and only if there is no schema for it or some table is defective. -/
theorem script_refuse_fails_iff (hp : settings.onDefect = .refuse) :
    (∃ error, dump.script settings = .error error) ↔
      (∃ error, dump.schema settings.delimiter = .error error) ∨
      ∃ schema, dump.schema settings.delimiter = .ok schema ∧
        ∃ table ∈ schema.tables, ∃ defect, table.define = .error defect := by
  simp only [script_refuse_eq_error_iff hp, exists_or]
  refine or_congr_right ⟨?_, ?_⟩
  · rintro ⟨error, schema, hs, defect, hf, -⟩
    exact ⟨schema, hs, exists_firstError_iff.mp ⟨defect, hf⟩⟩
  · rintro ⟨schema, hs, ht⟩
    obtain ⟨defect, hf⟩ := exists_firstError_iff.mpr ht
    exact ⟨.defect defect, schema, hs, defect, hf, rfl⟩

/-- Without a defective table the scripts of all settings that read the dump alike create the same
tables and leave nothing out. -/
theorem script_of_defined {delimiter : Char} (hs : dump.schema delimiter = .ok schema)
    (hd : ∀ table ∈ schema.tables, ∃ definition, table.define = .ok definition) :
    ∃ tables, ∀ settings, settings.delimiter = delimiter → dump.script settings =
      .ok ⟨settings, schema, tables, []⟩ := by
  obtain ⟨tables, ht⟩ := Script.ofSchema_of_defined hd
  refine ⟨tables, fun settings hdel => ?_⟩
  rw [script, hdel, hs]
  simp only [bind, Except.bind, ht, Except.mapError]

/-- A script that is not refused has a schema without a defective table. -/
theorem defined_of_script_refuse (hp : settings.onDefect = .refuse) {script : Script}
    (h : dump.script settings = .ok script) :
    ∃ schema, dump.schema settings.delimiter = .ok schema ∧
      ∀ table ∈ schema.tables, ∃ definition, table.define = .ok definition := by
  have hn : ¬ ∃ error, dump.script settings = .error error := by
    rintro ⟨error, he⟩
    rw [h] at he
    cases he
  rw [script_refuse_fails_iff hp] at hn
  cases hs : dump.schema settings.delimiter with
  | error error => exact absurd (.inl ⟨error, hs⟩) hn
  | ok schema =>
    refine ⟨schema, rfl, fun table ht => ?_⟩
    cases hd : table.define with
    | ok definition => exact ⟨definition, rfl⟩
    | error defect => exact absurd (.inr ⟨schema, hs, table, ht, defect, hd⟩) hn

/-- With skips a dump has a script if and only if it has a schema. Without them no table of the
schema may be defective either, and the defect of the first one is the error. If and only if none
is, both policies give scripts of the same text and the same counts that leave nothing out. -/
theorem script_under_policies (dump : Dump) (settings : Settings) :
    (∀ error, dump.script { settings with onDefect := .skip } = .error error ↔
      dump.schema settings.delimiter = .error error) ∧
    ((∃ error, dump.script { settings with onDefect := .refuse } = .error error) ↔
      (∃ error, dump.schema settings.delimiter = .error error) ∨
      ∃ schema, dump.schema settings.delimiter = .ok schema ∧
        ∃ table ∈ schema.tables, ∃ defect, table.define = .error defect) ∧
    (∀ error, dump.script { settings with onDefect := .refuse } = .error error ↔
      dump.schema settings.delimiter = .error error ∨
      ∃ schema, dump.schema settings.delimiter = .ok schema ∧
        ∃ defect, FirstError Table.define schema.tables defect ∧ error = .defect defect) ∧
    ((∃ schema, dump.schema settings.delimiter = .ok schema ∧
        ∀ table ∈ schema.tables, ∃ definition, table.define = .ok definition) ↔
      ∃ refusing skipping, dump.script { settings with onDefect := .refuse } = .ok refusing ∧
        dump.script { settings with onDefect := .skip } = .ok skipping ∧
        refusing.text = skipping.text ∧ refusing.counts = skipping.counts ∧
        refusing.skipped = [] ∧ skipping.skipped = []) := by
  refine ⟨fun error => script_skip_eq_error_iff rfl, script_refuse_fails_iff rfl,
    fun error => script_refuse_eq_error_iff rfl, ?_, ?_⟩
  · rintro ⟨schema, hs, hd⟩
    obtain ⟨tables, ht⟩ := script_of_defined hs hd
    exact ⟨_, _, ht _ rfl, ht _ rfl, rfl, rfl, rfl, rfl⟩
  · rintro ⟨refusing, -, hr, -⟩
    have hd := defined_of_script_refuse rfl hr
    exact hd

end CatalogDdl.Dump
