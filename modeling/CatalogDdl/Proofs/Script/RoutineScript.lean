import CatalogDdl.Proofs.Schema.Sorted
import CatalogDdl.Proofs.Script.Created

/-!
# Scripts of the routines of a kind

The routines of a kind have a script of their own. It has the blocks that stand under the heading of
the kind in a script of the whole schema, sorted by the names of the routines. So it does not depend
on the order of the listing, except between routines of one name.
-/
namespace CatalogDdl

namespace Script

/-- The blocks of the routines of a kind, in the order of their section in a script. -/
def routineBlocks (script : Script) (kind : Routine.Kind) : List String :=
  (script.schema.routines kind).map (·.batch script.settings.separator)

/-- A script ends with the sections of its routines. -/
theorem exists_front (script : Script) : ∃ front, script.text = front
    ++ (heading Routine.Kind.procedure.title ++ String.join (script.routineBlocks .procedure))
    ++ (heading Routine.Kind.view.title ++ String.join (script.routineBlocks .view)) := ⟨_, rfl⟩

end Script

namespace Schema

variable {schema other : Schema} {kind : Routine.Kind}

def routinesByName (schema : Schema) (kind : Routine.Kind) : List Routine :=
  (schema.routines kind).mergeSort fun a b => a.name ≤ b.name

theorem stablySorted_routinesByName (schema : Schema) (kind : Routine.Kind) :
    StablySorted Routine.name (schema.routines kind) (schema.routinesByName kind) :=
  stablySorted_mergeSort Routine.name _

theorem routineScript_eq (schema : Schema) (kind : Routine.Kind) (settings : Settings) :
    schema.routineScript kind settings =
      heading kind.title
        ++ String.join ((schema.routinesByName kind).map (·.batch settings.separator)) := rfl

theorem routinesByName_congr
    (h : SameByName Routine.name (schema.routines kind) (other.routines kind)) :
    other.routinesByName kind = schema.routinesByName kind :=
  (other.stablySorted_routinesByName kind).unique (schema.stablySorted_routinesByName kind) h.symm

end Schema

/-- The script of the routines of a kind is the heading of the kind and one block for each routine,
in ascending order of the names and, between routines of one name, in the order of the schema. These
are the blocks of the section of the kind in a script of the whole schema with the same separator,
each as often as there. Another order of the routines in which those of each name are in the same
order leaves the script as it is. -/
theorem routineScript_by_name (schema : Schema) (kind : Routine.Kind) (settings : Settings) :
    ∃ sorted : List Routine, StablySorted Routine.name (schema.routines kind) sorted ∧
      schema.routineScript kind settings =
        heading kind.title ++ String.join (sorted.map (·.batch settings.separator)) ∧
      (∀ (whole : Settings) (script : Script), whole.separator = settings.separator →
        Script.ofSchema whole schema = .ok script →
        (∃ front, script.text = front
          ++ (heading Routine.Kind.procedure.title ++ String.join (script.routineBlocks .procedure))
          ++ (heading Routine.Kind.view.title ++ String.join (script.routineBlocks .view))) ∧
        (sorted.map (·.batch settings.separator)).Perm (script.routineBlocks kind)) ∧
      ∀ other : Schema, SameByName Routine.name (schema.routines kind) (other.routines kind) →
        other.routineScript kind settings = schema.routineScript kind settings := by
  have hs := schema.stablySorted_routinesByName kind
  refine ⟨schema.routinesByName kind, hs, schema.routineScript_eq kind settings, ?_, ?_⟩
  · intro whole script hsep hw
    obtain ⟨hset, hsch⟩ := Script.settings_and_schema hw
    refine ⟨script.exists_front, ?_⟩
    rw [Script.routineBlocks, hset, hsch, hsep]
    exact hs.perm.map _
  · intro other ho
    rw [Schema.routineScript_eq, Schema.routineScript_eq, Schema.routinesByName_congr ho]

/-- Two procedures of one name, and another one between them. -/
def sampleRoutines : Schema where
  procedures := [⟨.procedure, "b", "SELECT 1\nGO\nSELECT 2"⟩, ⟨.procedure, "a", "SELECT 3"⟩,
    ⟨.procedure, "b", "SELECT 4"⟩]

def sampleSorted : Schema where
  procedures := [⟨.procedure, "a", "SELECT 3"⟩, ⟨.procedure, "b", "SELECT 1\nGO\nSELECT 2"⟩,
    ⟨.procedure, "b", "SELECT 4"⟩]

theorem routineScript_by_name_sample :
    SameByName Routine.name (sampleRoutines.routines .procedure)
      (sampleSorted.routines .procedure) ∧
    sampleSorted.routineScript .procedure .usual = sampleRoutines.routineScript .procedure .usual ∧
    sampleRoutines.routineScript .procedure .usual = heading "CREATE STORED PROCEDURES"
      ++ String.join (sampleSorted.procedures.map (·.batch "GO")) ∧
    ∃ script, Script.ofSchema Script.skipping sampleRoutines = .ok script ∧
      (sampleSorted.procedures.map (·.batch "GO")).Perm (script.routineBlocks .procedure) := by
  obtain ⟨sorted, hs, ht, hw, ho⟩ := routineScript_by_name sampleRoutines .procedure .usual
  have hr :
      SameByName Routine.name (sampleRoutines.routines .procedure)
        (sampleSorted.routines .procedure) := by decide
  have he : sorted = sampleSorted.procedures := by
    have ha : sampleSorted.procedures.Pairwise fun a b => a.name ≤ b.name := by decide
    exact hs.unique ⟨ha, hr.symm⟩ fun _ => rfl
  subst he
  obtain ⟨-, hp⟩ := hw Script.skipping _ rfl rfl
  exact ⟨hr, ho _ hr, ht, _, rfl, hp⟩

end CatalogDdl
