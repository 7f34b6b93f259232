import CatalogDdl.Error
import CatalogDdl.Proofs.Script.Created

/-!
# Writing tables one by one

Tables are written one after the other. A table that fails by a defect is set aside if such tables
are skipped, and every other failure ends the pass. A script is what a pass over its tables makes
of them, less the tables that depend on one set aside.
-/
namespace CatalogDdl.Script

/-- The tables written, and the names of those set aside, each with a message. -/
structure Pass where
  drafts : List Draft := []
  aside : List (String × String) := []

namespace Pass

variable (policy : DefectPolicy) (write : Table → Except Error TableDefinition)

def visit (pass : Pass) (table : Table) : Except Error Pass :=
  match write table with
  | .ok definition => .ok { pass with drafts := pass.drafts ++ [⟨table, definition⟩] }
  | .error e =>
    if e.isDefect && policy = .skip then
      .ok { pass with aside := pass.aside ++ [(table.name, e.message)] }
    else .error e

def run (tables : List Table) : Except Error Pass :=
  tables.foldlM (visit policy write) {}

/-- A table is not written, and it may not be set aside. -/
def Stops (table : Table) (e : Error) : Prop :=
  write table = .error e ∧ ¬ (e.isDefect = true ∧ policy = .skip)

def written (tables : List Table) : List Draft :=
  tables.filterMap fun table => match write table with
    | .ok definition => some ⟨table, definition⟩
    | .error _ => none

def failed (tables : List Table) : List (String × String) :=
  tables.filterMap fun table => match write table with
    | .ok _ => none
    | .error e => some (table.name, e.message)

/-- A visit fails by the error that stops it, and otherwise adds its table to one of the lists. -/
theorem visit_cases (pass : Pass) (table : Table) :
    (∃ e, Stops policy write table e ∧ pass.visit policy write table = .error e) ∨
    (∀ e, ¬ Stops policy write table e) ∧ pass.visit policy write table =
      .ok ⟨pass.drafts ++ written write [table], pass.aside ++ failed write [table]⟩ := by
  unfold visit
  cases hw : write table with
  | ok definition =>
    exact .inr ⟨fun e hs => by simp [Stops, hw] at hs, by simp [written, failed, hw]⟩
  | error e =>
    by_cases hg : e.isDefect = true ∧ policy = .skip
    · exact .inr ⟨fun e hs => by simp_all [Stops], by simp [written, failed, hw, hg]⟩
    · exact .inl ⟨e, ⟨hw, hg⟩, by simpa using hg⟩

/-- A pass ends at the first table that stops it, or it goes over all tables. -/
theorem foldlM_visit (pass : Pass) (tables : List Table) :
    (∃ before table after e, tables = before ++ table :: after ∧
      (∀ other ∈ before, ∀ e, ¬ Stops policy write other e) ∧ Stops policy write table e ∧
      tables.foldlM (visit policy write) pass = .error e) ∨
    (∀ table ∈ tables, ∀ e, ¬ Stops policy write table e) ∧
      tables.foldlM (visit policy write) pass =
        .ok ⟨pass.drafts ++ written write tables, pass.aside ++ failed write tables⟩ := by
  induction tables generalizing pass with
  | nil => exact .inr ⟨by simp, by simp [written, failed, pure, Except.pure]⟩
  | cons table rest ih =>
    rw [List.foldlM_cons]
    rcases pass.visit_cases policy write table with ⟨e, hs, hv⟩ | ⟨hn, hv⟩
    · rw [hv]
      exact .inl ⟨[], table, rest, e, rfl, by simp, hs, rfl⟩
    · rw [hv]
      rcases ih ⟨_, _⟩ with ⟨before, other, after, e, rfl, hb, hs, hf⟩ | ⟨hr, hf⟩
      · have hb := List.forall_mem_cons.mpr ⟨hn, hb⟩
        exact .inl ⟨table :: before, other, after, e, rfl, hb, hs, hf⟩
      · refine .inr ⟨List.forall_mem_cons.mpr ⟨hn, hr⟩, hf.trans ?_⟩
        simp only [List.append_assoc, written, failed, ← List.filterMap_append,
          List.singleton_append]

/-- What a pass comes to, however tables are written. -/
theorem run_cases (tables : List Table) :
    (∃ before table after e, tables = before ++ table :: after ∧
      (∀ other ∈ before, ∀ e, ¬ Stops policy write other e) ∧ Stops policy write table e ∧
      run policy write tables = .error e) ∨
    (∀ table ∈ tables, ∀ e, ¬ Stops policy write table e) ∧
      run policy write tables = .ok ⟨written write tables, failed write tables⟩ :=
  foldlM_visit policy write {} tables

def define (table : Table) : Except Error TableDefinition := table.define.mapError .defect

theorem written_define (tables : List Table) : written define tables = Skip.drafts tables := by
  unfold written Skip.drafts
  congr 1
  funext table
  unfold define
  cases table.define <;> rfl

theorem failed_define (tables : List Table) : failed define tables =
    (Skip.defective tables).map fun skip => (skip.name, skip.reason.message) := by
  rw [Skip.defective, List.map_filterMap]
  unfold failed
  congr 1
  funext table
  unfold define
  cases table.define <;> rfl

/-- A defect stops a pass unless defective tables are skipped. -/
theorem stops_define_iff {policy : DefectPolicy} {table : Table} {e : Error} :
    Stops policy define table e ↔
      policy = .refuse ∧ ∃ defect, table.define = .error defect ∧ e = .defect defect := by
  rw [Stops, define, mapError_eq_error_iff]
  cases policy with
  | refuse => simp
  | skip =>
    simp only [reduceCtorEq, false_and, iff_false]
    rintro ⟨⟨defect, -, rfl⟩, hd⟩
    exact hd ⟨rfl, trivial⟩

end Pass

/-- A script fails as the pass over its tables does. Otherwise it keeps the tables written and
leaves out those set aside, except for the tables that depend on one of them. -/
theorem ofSchema_by_pass (settings : Settings) (schema : Schema) :
    (∃ defect, Pass.run settings.onDefect Pass.define schema.tables = .error (.defect defect) ∧
      ofSchema settings schema = .error defect) ∨
    ∃ result own, Pass.run settings.onDefect Pass.define schema.tables = .ok result ∧
      result.aside = own.map (fun skip => (skip.name, skip.reason.message)) ∧
      ofSchema settings schema = .ok
        { settings, schema
          tables := (Skip.spread own result.drafts).kept.map (·.definition)
          skipped := (Skip.spread own result.drafts).left } := by
  rcases Pass.run_cases settings.onDefect Pass.define schema.tables with
    ⟨before, table, after, e, ht, hb, hs, hp⟩ | ⟨hn, hp⟩
  · obtain ⟨hr, defect, hd, rfl⟩ := Pass.stops_define_iff.mp hs
    refine .inl ⟨defect, hp, (ofSchema_refuse_eq_error_iff hr).mpr ?_⟩
    refine ⟨before, table, after, ht, fun other ho => ?_, hd⟩
    cases hk : other.define with
    | ok definition => exact ⟨definition, rfl⟩
    | error defect => exact absurd (Pass.stops_define_iff.mpr ⟨hr, defect, hk, rfl⟩) (hb other ho _)
  · refine .inr ⟨_, Skip.defective schema.tables, hp, Pass.failed_define _, ?_⟩
    rw [Pass.written_define]
    change ofSchema settings schema = .ok (leavingOut settings schema)
    cases hr : settings.onDefect with
    | skip => exact ofSchema_skip hr
    | refuse =>
      have hd : ∀ table ∈ schema.tables, ∃ definition, table.define = .ok definition := by
        intro table ht
        cases hk : table.define with
        | ok definition => exact ⟨definition, rfl⟩
        | error defect =>
          exact absurd (Pass.stops_define_iff.mpr ⟨hr, defect, hk, rfl⟩) (hn table ht _)
      rw [ofSchema_eq_of_defined hd, leavingOut, Skip.select_of_defined hd]

end CatalogDdl.Script
