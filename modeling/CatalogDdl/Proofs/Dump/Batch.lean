import CatalogDdl.Proofs.Dump.Printed
import CatalogDdl.Proofs.Dump.Routine
import CatalogDdl.Proofs.Script.Batch

/-!
# Batches of a dump's script

No text that a listing gives to a script has a line feed, so none can end a batch or begin one. The
lines `GO` of a script are those of its separators.
-/
namespace CatalogDdl.Dump
open Text

variable {dump : Dump} {settings : Settings} {script : Script}

/-- Let the names of the definitions and the texts of the head be on one line each, and let no
routine have a line `GO`. Then a script has such a line for the database, if there is one, two for
the drops and the tables, and one for each routine. After the batch of the tables each routine has
one batch, of remarks and its definition, the procedures before the views. Only remarks follow the
last line `GO`. -/
theorem script_batches (h : dump.script settings = .ok script) (hg : settings.separator = "GO")
    (hset : settings.OneLine) (hd : ∀ new ∈ dump.definitions, Unbroken new.name)
    (hb : ∀ routine ∈ script.schema.procedures ++ script.schema.views,
      goLine ∉ routine.definition.toList.splitOn '\n') :
    dump.schema settings.delimiter = .ok script.schema ∧
    (script.text.toList.splitOn '\n').count goLine = (if settings.database.isSome then 1 else 0) + 2
      + script.schema.procedures.length + script.schema.views.length ∧
    ∃ early tables procedures views last,
      (script.text.toList.splitOn '\n').splitOn goLine =
        early ++ tables :: (procedures ++ views) ++ [last] ∧
      early.length = (if settings.database.isSome then 1 else 0) + 1 ∧
      tables.flatMap (· ++ ['\n']) =
        ("\n" ++ heading "CREATE TABLES" ++ String.join (script.tables.map (·.sql))).toList ∧
      List.Forall₂ Routine.IsBatch script.schema.procedures procedures ∧
      List.Forall₂ Routine.IsBatch script.schema.views views ∧ ∀ line ∈ last, IsRemark line := by
  obtain ⟨schema, hs, hw⟩ := script_eq_ok h
  obtain ⟨c, hc, hcs⟩ := schema_eq_ok hs
  obtain ⟨rfl, rfl⟩ := Script.settings_and_schema hw
  have hu := Script.unbroken_statements (oneLine_catalog hc hd) hcs hw hset.database
  obtain ⟨early, tables, procedures, views, last, hl, he, ht, hp, hv, hr⟩ :=
    Script.exists_batches hg hset hu hb
  refine ⟨hs, ?_, early, tables, procedures, views, last, hl, he, ht, hp, hv, hr⟩
  have hn := length_splitOn (d := goLine) (script.text.toList.splitOn '\n')
  rw [hl] at hn
  simp only [List.length_append, List.length_cons, List.length_nil, he, ← hp.length_eq,
    ← hv.length_eq] at hn
  omega

/-- A script that turns to a database and creates two tables, a procedure and a view has five lines
`GO`, and its batches of routines are those of the two. -/
theorem script_batches_sample : ∃ script,
    (Catalog.stocked.dump []).script { database := some "D" } = .ok script ∧
    (script.text.toList.splitOn '\n').count goLine = 5 ∧
    ∃ early tables procedure view last,
      (script.text.toList.splitOn '\n').splitOn goLine =
        early ++ tables :: ([procedure] ++ [view]) ++ [last] ∧
      early.length = 2 ∧ script.tables.map (·.name) = ["User", "Order"] ∧
      Routine.IsBatch ⟨.procedure, "Purge", "CREATE PROCEDURE Purge AS DELETE Order"⟩ procedure ∧
      Routine.IsBatch ⟨.view, "Open", "CREATE VIEW Open AS SELECT Id FROM Order"⟩ view := by
  obtain ⟨tables, hs⟩ := Catalog.script_stocked
  have hs := hs { database := some "D" } rfl
  have hb : ∀ routine ∈ Catalog.stocked.procedures ++ Catalog.stocked.views,
      goLine ∉ routine.definition.toList.splitOn '\n' := by decide +kernel
  obtain ⟨-, hc, early, created, procedures, views, last, hl, he, -, hp, hv, -⟩ :=
    script_batches hs rfl ⟨by decide, by simp, by simp; decide⟩ (by simp [Catalog.dump]) hb
  obtain ⟨procedure, none, hip, hnone, rfl⟩ := List.forall₂_cons_left_iff.mp hp
  obtain rfl := List.forall₂_nil_left_iff.mp hnone
  obtain ⟨view, none, hiv, hnone, rfl⟩ := List.forall₂_cons_left_iff.mp hv
  obtain rfl := List.forall₂_nil_left_iff.mp hnone
  have hn : tables.map (·.name) = ["User", "Order"] := by
    obtain ⟨schema, -, hw⟩ := script_eq_ok hs
    obtain ⟨-, rfl⟩ := Script.settings_and_schema hw
    refine (Script.map_name_created Catalog.schema_stocked hw).trans ?_
    cbv
  exact ⟨_, hs, hc, early, created, procedure, view, last, hl, he, hn, hip, hiv⟩

end CatalogDdl.Dump
