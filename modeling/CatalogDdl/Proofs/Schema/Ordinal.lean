import CatalogDdl.Proofs.Schema.Build
import CatalogDdl.Proofs.Schema.Consistent
import CatalogDdl.Proofs.Schema.Placed
import Mathlib.Order.Bounds.Basic

/-!
# Which repeated ordinal is reported

If columns of a table share an ordinal, this is the defect that is reported, whatever else is wrong:
the least such table by name, and the least ordinal that is repeated in it. The order of the listing
makes no difference.
-/
namespace CatalogDdl.Catalog
open DeclaredOrder

/-- Two columns of the table have the ordinal. -/
def Repeats (c : Catalog) (table : String) (ordinal : Int) : Prop :=
  List.Duplicate ordinal (c.ordinalsOf table)

/-- The first number that its neighbour repeats is the least one that a sorted list repeats. -/
theorem isLeast_of_repeated? {ns : List Int} (hs : ns.Pairwise (· ≤ ·)) {n : Int}
    (h : repeated? ns = some n) :
    IsLeast {m | List.Duplicate m ns} n := by
  refine ⟨duplicate_of_repeated? h, fun m hm => ?_⟩
  fun_induction repeated? ns with
  | case1 a rest =>
    cases h
    rcases List.mem_cons.mp (List.Duplicate.mem hm) with rfl | hr
    · exact le_refl m
    · exact (List.pairwise_cons.mp hs).1 m hr
  | case2 a b rest hne ih =>
    rcases List.duplicate_cons_iff.mp hm with ⟨rfl, hr⟩ | hr
    · exact absurd hr (not_mem_of_sorted hs hne)
    · exact ih hs.of_cons h hr
  | case3 => cases h

/-- The first of sorted names with a value is the least one. -/
theorem isLeast_of_findSome? {α : Type} {names : List String} (hs : names.Pairwise (· < ·))
    {f : String → Option α} {x : α} (h : names.findSome? f = some x) :
    ∃ name, f name = some x ∧ IsLeast {other | other ∈ names ∧ (f other).isSome = true} name := by
  obtain ⟨before, name, after, hn, hx, hb⟩ := List.findSome?_eq_some_iff.mp h
  have hm : name ∈ names := by simp [hn]
  have hf : names.find? (fun other => (f other).isSome) = some name := by
    refine List.find?_eq_some_iff_append.mpr ⟨by simp [hx], before, after, hn, fun other ho => ?_⟩
    simp [hb other ho]
  exact ⟨name, hx, ⟨hm, by simp [hx]⟩, fun other ho => le_of_find?_eq_some hs hf ho.1 ho.2⟩

variable {c : Catalog} {table : String} {ordinal : Int}

theorem duplicate_columnsOf_iff :
    List.Duplicate ordinal ((c.columnsOf table).map (·.ordinal)) ↔ c.Repeats table ordinal := by
  rw [Repeats, List.duplicate_iff_two_le_count, List.duplicate_iff_two_le_count,
    (c.ordinals_columnsOf_perm table).count_eq]

/-- Sorting a table's columns brings a repeated ordinal to light. -/
theorem isSome_repeated?_iff :
    (repeated? ((c.columnsOf table).map (·.ordinal))).isSome = true ↔
      ∃ ordinal, c.Repeats table ordinal := by
  have hs := List.pairwise_map.mpr (c.columnsOf_sorted table)
  rw [Option.isSome_iff_ne_none, Ne, repeated?_eq_none_iff hs,
    ← List.exists_duplicate_iff_not_nodup]
  simp only [duplicate_columnsOf_iff]

theorem mem_tableNames_of_repeats (h : c.Repeats table ordinal) : table ∈ c.tableNames := by
  obtain ⟨column, hc, -⟩ := List.mem_map.mp (List.Duplicate.mem h)
  obtain ⟨hm, ht⟩ := List.mem_filter.mp hc
  exact mem_sortNames.mpr (List.mem_map.mpr ⟨column, hm, by simpa using ht⟩)

/-- The ordinal found first is the least one in the least table. -/
theorem isLeast_of_ordinalDefect? {defect : Defect} (h : c.ordinalDefect? = some defect) :
    ∃ table ordinal, defect = .repeatedOrdinal table ordinal ∧
      IsLeast {name | ∃ n, c.Repeats name n} table ∧ IsLeast {n | c.Repeats table n} ordinal := by
  obtain ⟨table, hf, hl⟩ := isLeast_of_findSome? (sortNames_ascending _) h
  obtain ⟨ordinal, hr, rfl⟩ := Option.map_eq_some_iff.mp hf
  have hn : {other | other ∈ c.tableNames ∧ ((repeated? ((c.columnsOf other).map (·.ordinal))).map
      (Defect.repeatedOrdinal other)).isSome = true} = {name | ∃ n, c.Repeats name n} := by
    ext name
    simp only [Set.mem_ofPred_eq, Option.isSome_map, isSome_repeated?_iff, and_iff_right_iff_imp]
    rintro ⟨n, hn⟩
    exact mem_tableNames_of_repeats hn
  have ho := isLeast_of_repeated? (List.pairwise_map.mpr (c.columnsOf_sorted table)) hr
  simp only [duplicate_columnsOf_iff] at ho
  exact ⟨table, ordinal, rfl, hn ▸ hl, ho⟩

/-- A repeated ordinal is found before any other defect. -/
theorem schema_of_repeats (h : c.Repeats table ordinal) : ∃ first least,
    c.schema = .error (.repeatedOrdinal first least) ∧
      IsLeast {name | ∃ n, c.Repeats name n} first ∧ IsLeast {n | c.Repeats first n} least := by
  cases hd : c.ordinalDefect? with
  | none => exact absurd (ordinalDefect?_eq_none_iff.mp hd table) h.not_nodup
  | some defect =>
    obtain ⟨first, least, rfl, hf, hl⟩ := isLeast_of_ordinalDefect? hd
    have he : c.defect? = some (.repeatedOrdinal first least) := by rw [defect?, hd, Option.some_or]
    exact ⟨first, least, by simp only [schema, he], hf, hl⟩

theorem repeats_of_schema (h : c.schema = .error (.repeatedOrdinal table ordinal)) :
    c.Repeats table ordinal := by
  unfold Catalog.schema at h
  split at h
  · rename_i defect hd
    cases h
    cases evidence_of_defect? hd with
    | repeatedOrdinal hr => exact hr
  · cases h

/-- A repeated ordinal is reported if and only if there is one. It is the least one of the least
table by name that has one. -/
theorem repeatedOrdinal_least (c : Catalog) :
    ((∃ table ordinal, c.schema = .error (.repeatedOrdinal table ordinal)) ↔
      ∃ table ordinal, c.Repeats table ordinal) ∧
    ∀ table ordinal, c.schema = .error (.repeatedOrdinal table ordinal) ↔
      IsLeast {name | ∃ n, c.Repeats name n} table ∧ IsLeast {n | c.Repeats table n} ordinal := by
  refine ⟨⟨?_, ?_⟩, fun table ordinal => ⟨fun h => ?_, ?_⟩⟩
  · rintro ⟨table, ordinal, h⟩
    exact ⟨table, ordinal, repeats_of_schema h⟩
  · rintro ⟨table, ordinal, h⟩
    obtain ⟨first, least, he, -⟩ := schema_of_repeats h
    exact ⟨first, least, he⟩
  · obtain ⟨first, least, he, hf, hl⟩ := schema_of_repeats (repeats_of_schema h)
    rw [h] at he
    cases he
    exact ⟨hf, hl⟩
  · rintro ⟨ht, ho⟩
    obtain ⟨first, least, he, hf, hl⟩ := schema_of_repeats ho.1
    obtain rfl := hf.unique ht
    obtain rfl := hl.unique ho
    exact he

/-- Two tables repeat an ordinal here, one of them two ordinals, and a primary key is on no
table. -/
def sampleRepeats : Catalog where
  columns :=
    [("B", 2), ("B", 1), ("A", 9), ("B", 2), ("A", 3), ("A", 9),
      ("A", 3)].map fun (table, ordinal) =>
    { sampleColumn table with ordinal }
  primaryKeys := [⟨"C", "P", "Id", 1⟩]

example : sampleRepeats.schema = .error (.repeatedOrdinal "A" 3) := by cbv

end CatalogDdl.Catalog
