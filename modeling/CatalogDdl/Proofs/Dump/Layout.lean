import CatalogDdl.Dump.Basic
import CatalogDdl.Proofs.ResultSet.Layout

/-!
# Dumps that are laid out differently

A dump says the same however its listings are laid out. The layout makes no difference to its
schema, to its script or to the error for which it has none.
-/
namespace CatalogDdl.Dump
open ResultSet

/-- The second dump has the listings of the first one, each laid out anew, and its definitions. -/
structure Relaid (dump other : Dump) : Prop where
  listings : ∀ listing,
    Relation.ReflTransGen ResultSet.Relaid (dump.listing listing).toList
      (other.listing listing).toList
  definitions : dump.definitions = other.definitions

variable {dump other : Dump}

theorem Relaid.rows_eq (h : dump.Relaid other) (delimiter : Char) (listing : Listing) :
    dump.rows delimiter listing = other.rows delimiter listing := by
  rw [rows, rows, parse_congr (contentLines_of_relaid (h.listings listing)).symm]

theorem Relaid.catalog_eq (h : dump.Relaid other) (delimiter : Char) :
    dump.catalog delimiter = other.catalog delimiter := by
  simp only [catalog, listedCatalog, h.rows_eq delimiter, h.definitions]

theorem Relaid.schema_eq (h : dump.Relaid other) (delimiter : Char) :
    dump.schema delimiter = other.schema delimiter := by
  rw [schema, schema, h.catalog_eq]

/-- Whatever the delimiter is, a blank included, a dump whose listings are laid out anew has the
same schema and under all settings the same script, or else the same error. -/
theorem layout_irrelevant (h : dump.Relaid other) :
    (∀ delimiter, dump.schema delimiter = other.schema delimiter) ∧
    ∀ settings, dump.script settings = other.script settings := by
  refine ⟨h.schema_eq, fun settings => ?_⟩
  rw [script, script, h.schema_eq]

/-- A dump of one procedure, whose listing has tabs between its fields. -/
def tabbed : Dump := { procedures := "ProcedureName\tDefinition\n-\t-\np\tx" }

def tabbedAnew : Dump := { procedures := "ProcedureName\tDefinition\r\n \r\n-\t-\r\n\tp\tx\t" }

theorem relaid_tabbed : tabbed.Relaid tabbedAnew where
  definitions := rfl
  listings listing := by
    cases listing with
    | procedures =>
      have ht : ∀ c ∈ ['\t'], Text.isBlank c = true := List.forall_mem_singleton.mpr rfl
      have h₁ := ResultSet.Relaid.blanks ["ProcedureName\tDefinition".toList, "-\t-".toList] []
        ['\t'] "p\tx".toList ['\t'] ht ht
      have h₂ := ResultSet.Relaid.blankLine ["ProcedureName\tDefinition".toList]
        ["-\t-".toList, "\tp\tx\t".toList] [' '] (by decide)
      have h₃ := ResultSet.Relaid.returns "ProcedureName\tDefinition\n \n-\t-\n\tp\tx\t".toList
      exact ((Relation.ReflTransGen.single h₁).tail h₂).tail h₃
    | columns | primaryKeys | foreignKeys | indexes | views => exact .refl

theorem layout_irrelevant_tabbed : tabbed.Relaid tabbedAnew ∧
    tabbedAnew.schema '\t' = .ok { procedures := [⟨.procedure, "p", "x"⟩] } ∧
    tabbed.script { delimiter := '\t' } = tabbedAnew.script { delimiter := '\t' } := by
  obtain ⟨hs, hw⟩ := layout_irrelevant relaid_tabbed
  refine ⟨relaid_tabbed, ?_, hw _⟩
  rw [← hs]
  cbv

end CatalogDdl.Dump
