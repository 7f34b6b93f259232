import CatalogDdl.Proofs.Schema.Agree
import CatalogDdl.Proofs.Schema.Sorted

/-!
# The primary key of a table

The parts that a table owns make its primary key: none without parts, a defect if their names
differ, and otherwise the one key with their columns by position. Where the positions are distinct
the order of the parts does not matter.
-/
namespace CatalogDdl.PrimaryKey

/-- The key has the name of all parts and their columns, sorted by position. -/
structure ComposedOf (key : PrimaryKey) (parts : List PrimaryKeyPart) : Prop where
  name : ∀ part ∈ parts, part.constraint = key.name
  columns : ∃ sorted, StablySorted (·.position) parts sorted ∧ key.columns = sorted.map (·.column)

namespace ComposedOf

variable {key other : PrimaryKey} {parts others : List PrimaryKeyPart}

theorem columns_perm (h : key.ComposedOf parts) : key.columns.Perm (parts.map (·.column)) := by
  obtain ⟨sorted, hs, hc⟩ := h.columns
  rw [hc]
  exact hs.perm.map _

/-- Parts with distinct positions compose one key in whatever order they come. -/
theorem eq_of_perm (h : key.ComposedOf parts) (ho : other.ComposedOf others) (hne : parts ≠ [])
    (hp : parts.Perm others) (hn : (parts.map (·.position)).Nodup) : key = other := by
  obtain ⟨part, hm⟩ := List.exists_mem_of_ne_nil _ hne
  have hname : key.name = other.name :=
      (h.name part hm).symm.trans (ho.name part (hp.mem_iff.mp hm))
  obtain ⟨sorted, hs, hc⟩ := h.columns
  obtain ⟨sorted', hs', hc'⟩ := ho.columns
  have hcolumns : key.columns = other.columns := by rw [hc, hc', hs.eq_of_perm hs' hp hn]
  cases key
  cases other
  rw [PrimaryKey.mk.injEq]
  exact ⟨hname, hcolumns⟩

end ComposedOf

variable {table : String} {parts others : List PrimaryKeyPart}

theorem composedOf_of_ofParts {key : PrimaryKey} (h : ofParts table parts = .ok (some key)) :
    key.ComposedOf (parts.filter fun part => part.table = table) := by
  obtain ⟨-, hn, hc⟩ := ofParts_eq_some h
  exact ⟨hn, _, stablySorted_mergeSort PrimaryKeyPart.position _, hc⟩

theorem ofParts_eq_none_iff :
    ofParts table parts = .ok none ↔ parts.filter (fun part => part.table = table) = [] := by
  refine ⟨ofParts_eq_none, fun h => ?_⟩
  simp only [ofParts, h]

/-- Only parts with two names have no result. -/
theorem exists_ofParts_iff : (∃ key?, ofParts table parts = .ok key?) ↔
    Sound (parts.filter fun part => part.table = table) := by
  refine exists_ok_iff_of (fun _ => sound_of_ofParts) fun defect h hs => ?_
  obtain ⟨first, hf, other, ho, hn, -⟩ := exists_of_ofParts_eq_error h
  exact hn (hs first hf other ho)

theorem exists_key (hne : parts.filter (fun part => part.table = table) ≠ [])
    (hs : Sound (parts.filter fun part => part.table = table)) :
    ∃ key, ofParts table parts = .ok (some key) := by
  obtain ⟨key?, hk⟩ := exists_ofParts_iff.mpr hs
  cases key? with
  | none => exact absurd (ofParts_eq_none_iff.mp hk) hne
  | some key => exact ⟨key, hk⟩

/-- Distinct positions leave one order for the columns. -/
theorem ofParts_of_perm (hp : parts.Perm others)
    (hn : ((parts.filter fun part => part.table = table).map (·.position)).Nodup)
    {key? : Option PrimaryKey}
    (h : ofParts table parts = .ok key?) : ofParts table others = .ok key? := by
  have hpo := hp.filter fun part => part.table = table
  cases key? with
  | none =>
    rw [ofParts_eq_none_iff] at h ⊢
    rw [h] at hpo
    exact hpo.nil_eq.symm
  | some key =>
    have hs := sound_of_ofParts h
    have hso : Sound (others.filter fun part => part.table = table) := fun part hm other ho =>
      hs part (hpo.mem_iff.mpr hm) other (hpo.mem_iff.mpr ho)
    have hne := (ofParts_eq_some h).1
    obtain ⟨other, ho⟩ := exists_key (fun he => hne (by rw [he] at hpo; exact hpo.eq_nil)) hso
    rw [ho, (composedOf_of_ofParts h).eq_of_perm (composedOf_of_ofParts ho) hne hpo hn]

/-- A table has no primary key if and only if it owns no part of one, and there is a defect if and
only if two of its parts have different names. Otherwise its parts make a key with their columns by
position, those of equal position in their order. With distinct positions the listing may come in
any order: it has the same result or none either. -/
theorem key_by_position (table : String) (parts : List PrimaryKeyPart) :
    (ofParts table parts = .ok none ↔ parts.filter (fun part => part.table = table) = []) ∧
    ((∃ defect, ofParts table parts = .error defect) ↔
      ∃ part ∈ parts, ∃ other ∈ parts, part.table = table ∧ other.table = table ∧ part.constraint ≠
        other.constraint) ∧
    (parts.filter (fun part => part.table = table) ≠ [] →
      Sound (parts.filter fun part => part.table = table) →
      ∃ key, ofParts table parts = .ok (some key) ∧
      key.ComposedOf (parts.filter fun part => part.table = table) ∧
        key.columns.Perm ((parts.filter fun part => part.table = table).map (·.column))) ∧
    (((parts.filter fun part => part.table = table).map (·.position)).Nodup →
      ∀ others, parts.Perm others →
      ∀ key?, ofParts table parts = .ok key? ↔ ofParts table others = .ok key?) := by
  refine ⟨ofParts_eq_none_iff, ⟨?_, ?_⟩, ?_, ?_⟩
  · rintro ⟨defect, h⟩
    obtain ⟨first, hf, other, ho, hn, -⟩ := exists_of_ofParts_eq_error h
    rw [List.mem_filter, decide_eq_true_eq] at hf ho
    exact ⟨first, hf.1, other, ho.1, hf.2, ho.2, hn⟩
  · rintro ⟨part, hp, other, ho, hpt, hot, hn⟩
    cases h : ofParts table parts with
    | error defect => exact ⟨defect, rfl⟩
    | ok key? =>
      have hs := sound_of_ofParts h
      exact absurd (hs part (List.mem_filter.mpr ⟨hp, by simpa using hpt⟩) other
        (List.mem_filter.mpr ⟨ho, by simpa using hot⟩)) hn
  · intro hne hs
    obtain ⟨key, hk⟩ := exists_key hne hs
    have hc := composedOf_of_ofParts hk
    exact ⟨key, hk, hc, hc.columns_perm⟩
  · intro hn others hp key?
    have hno := ((hp.filter fun part => part.table = table).map (·.position)).nodup_iff.mp hn
    exact ⟨ofParts_of_perm hp hn, ofParts_of_perm hp.symm hno⟩

/-- The second part of this key is listed first, and a part of another table stands between them. -/
def sampleParts : List PrimaryKeyPart :=
  [⟨"T", "P", "B", 2⟩, ⟨"U", "Q", "X", 2⟩, ⟨"T", "P", "A", 1⟩]

theorem ofParts_sampleParts : ofParts "T" sampleParts = .ok (some ⟨"P", ["A", "B"]⟩) := by
  simp [ofParts, sampleParts, List.mergeSort]

/-- The key of the sample is the same from its parts in reverse, and other tables have the key of
their own part or none. -/
theorem key_by_position_sample : ofParts "T" sampleParts.reverse = .ok (some ⟨"P", ["A", "B"]⟩) ∧
    (∃ key, ofParts "U" sampleParts = .ok (some key) ∧ key.columns.Perm ["X"]) ∧
    ofParts "V" sampleParts = .ok none := by
  obtain ⟨-, -, -, hp⟩ := key_by_position "T" sampleParts
  obtain ⟨-, -, hs, -⟩ := key_by_position "U" sampleParts
  obtain ⟨hn, -, -, -⟩ := key_by_position "V" sampleParts
  obtain ⟨key, hk, -, hc⟩ := hs (by decide) (by decide)
  exact ⟨(hp (by decide) _ (List.reverse_perm _).symm _).mp ofParts_sampleParts, ⟨key, hk, hc⟩,
    hn.mpr (by decide)⟩

end CatalogDdl.PrimaryKey
