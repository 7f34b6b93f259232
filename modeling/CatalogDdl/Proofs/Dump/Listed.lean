import CatalogDdl.Dump.Basic
import CatalogDdl.Proofs.Catalog.Redefined
import CatalogDdl.Proofs.ResultSet.Content
import CatalogDdl.Proofs.Schema.Build

/-!
# What the listings of a dump are read as

The records of a catalog are those of the six listings, each under its kind. Their texts are values
of rows, so each of them is on one line.
-/
namespace CatalogDdl
open Text

namespace Dump

variable {dump : Dump} {delimiter : Char} {c : Catalog}

/-- The records of a catalog are those of the six listings. -/
theorem listedCatalog_eq_ok (h : dump.listedCatalog delimiter = .ok c) :
    Column.ofRows (dump.rows delimiter .columns) = .ok c.columns ∧
    PrimaryKeyPart.ofRows (dump.rows delimiter .primaryKeys) = .ok c.primaryKeys ∧
    ForeignKeyPart.ofRows (dump.rows delimiter .foreignKeys) = .ok c.foreignKeys ∧
    IndexPart.ofRows (dump.rows delimiter .indexes) = .ok c.indexes ∧
    ∀ kind, Routine.ofRows kind (dump.rows delimiter kind.listing) = .ok (c.routines kind) := by
  simp only [listedCatalog, bind_eq_ok_iff] at h
  obtain ⟨_, hc, _, hp, _, hf, _, hi, _, hr, _, hv, he⟩ := h
  cases he
  refine ⟨hc, hp, hf, hi, fun kind => ?_⟩
  cases kind
  · exact hr
  · exact hv

theorem listedByKind (h : dump.listedCatalog delimiter = .ok c) : c.ListedByKind := by
  intro kind routine hr
  obtain ⟨row, -, number, ho⟩ := exists_row_of_decodeRows ((listedCatalog_eq_ok h).2.2.2.2 kind) hr
  exact Routine.kind_of_ofRow ho

theorem catalog_eq_ok (h : dump.catalog delimiter = .ok c) :
    ∃ listed, dump.listedCatalog delimiter = .ok listed ∧ c = listed.redefine dump.definitions := by
  simp only [catalog, bind_eq_ok_iff] at h
  obtain ⟨listed, hl, he⟩ := h
  cases he
  exact ⟨listed, hl, rfl⟩

/-- What the listings say is on one line each. -/
theorem oneLine_listedCatalog (h : dump.listedCatalog delimiter = .ok c) : c.OneLine := by
  have hv {listing : Listing} {row : Row} (hr : row ∈ dump.rows delimiter listing) {value : String}
      (hm : value ∈ row.values) : Unbroken value := ResultSet.unbroken_of_mem_rows hr hm
  obtain ⟨hc, hp, hf, hi, hr⟩ := listedCatalog_eq_ok h
  constructor
  · intro column hm text ht
    obtain ⟨row, hrow, number, ho⟩ := exists_row_of_decodeRows hc hm
    rcases Column.mem_texts ho text ht with ht | rfl
    · exact hv hrow ht
    · decide
  · intro part hm text ht
    obtain ⟨row, hrow, number, ho⟩ := exists_row_of_decodeRows hp hm
    exact hv hrow (PrimaryKeyPart.mem_texts ho text ht)
  · intro part hm text ht
    obtain ⟨row, hrow, number, ho⟩ := exists_row_of_decodeRows hf hm
    exact hv hrow (ForeignKeyPart.mem_texts ho text ht)
  · intro part hm text ht
    obtain ⟨row, hrow, number, ho⟩ := exists_row_of_decodeRows hi hm
    exact hv hrow (IndexPart.mem_texts ho text ht)
  · intro kind routine hm
    obtain ⟨row, hrow, number, ho⟩ := exists_row_of_decodeRows (hr kind) hm
    exact hv hrow (Routine.name_mem ho)

theorem oneLine_catalog (h : dump.catalog delimiter = .ok c)
    (hd : ∀ new ∈ dump.definitions, Unbroken new.name) :
    c.OneLine := by
  obtain ⟨listed, hl, rfl⟩ := catalog_eq_ok h
  exact (oneLine_listedCatalog hl).redefine hd

theorem schema_eq_ok {schema : Schema} (h : dump.schema delimiter = .ok schema) :
    ∃ c, dump.catalog delimiter = .ok c ∧ c.schema = .ok schema := by
  simp only [Dump.schema, bind_eq_ok_iff, mapError_eq_ok_iff] at h
  exact h

theorem script_eq_ok {settings : Settings} {script : Script}
    (h : dump.script settings = .ok script) :
    ∃ schema, dump.schema settings.delimiter = .ok schema ∧ Script.ofSchema settings schema =
      .ok script := by
  simp only [Dump.script, bind_eq_ok_iff, mapError_eq_ok_iff] at h
  exact h

end Dump
end CatalogDdl
