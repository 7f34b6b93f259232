import CatalogDdl.Proofs.Schema.Key

/-!
# Parts that agree

The parts of a key are compared with the first one of their name. That is enough to know that any
two of them agree, and that each pair of a foreign key has both columns. Where the comparison fails
there are parts that show why.
-/
namespace CatalogDdl
open Text

def Agree {α β : Type} (name : α → String) (value : α → β) (items : List α) : Prop :=
  ∀ item ∈ items, ∀ other ∈ items, name item = name other → value item = value other

/-- It is enough that the items of each group have the value of the first one. -/
theorem agree_of_groups {α β : Type} {name : α → String} {value : α → β} {items : List α}
    (h : ∀ group ∈ groupsBy name items, ∀ item ∈ group.rest, value item = value group.first) :
    Agree name value items := by
  intro item hi other ho hn
  obtain ⟨group, hg, hm⟩ := exists_group_of_mem name hi
  have hf : ∀ member ∈ group.items, value member = value group.first :=
      List.forall_mem_cons.mpr ⟨rfl, h group hg⟩
  have hmo : other ∈ group.items := by
    rw [items_of_mem_groupsBy hg]
    exact List.mem_filter.mpr ⟨ho, by simpa using hn.symm.trans (name_of_mem_group hg hm)⟩
  exact (hf item hm).trans (hf other hmo).symm

namespace PrimaryKey

variable {table : String} {parts : List PrimaryKeyPart}

/-- All parts are of one key. -/
def Sound (parts : List PrimaryKeyPart) : Prop :=
  ∀ part ∈ parts, ∀ other ∈ parts, part.constraint = other.constraint

instance (parts : List PrimaryKeyPart) : Decidable (Sound parts) :=
  inferInstanceAs (Decidable (∀ part ∈ parts, ∀ other ∈ parts, part.constraint = other.constraint))

theorem sound_of_ofParts {key? : Option PrimaryKey} (h : ofParts table parts = .ok key?) :
    Sound (parts.filter fun part => part.table = table) := by
  cases key? with
  | none =>
    rw [ofParts_eq_none h]
    intro part hp
    cases hp
  | some key =>
    obtain ⟨-, hn, -⟩ := ofParts_eq_some h
    exact fun part hp other ho => (hn part hp).trans (hn other ho).symm

/-- A second primary key is reported only if a part of the table has another name than a part of
it. -/
theorem exists_of_ofParts_eq_error {defect : Defect} (h : ofParts table parts = .error defect) :
    ∃ first ∈ parts.filter (fun part => part.table = table),
    ∃ other ∈ parts.filter (fun part => part.table = table),
      first.constraint ≠ other.constraint ∧
        defect = .secondPrimaryKey table first.constraint other.constraint := by
  unfold ofParts at h
  split at h
  · cases h
  · rename_i first rest hp
    split at h
    · rename_i other hf
      cases h
      have hn : other.constraint ≠ first.constraint := by simpa using List.find?_some hf
      rw [hp]
      exact ⟨first, List.mem_cons_self, other,
        List.mem_cons_of_mem _ (List.mem_of_find?_eq_some hf), hn.symm, rfl⟩
    · cases h

end PrimaryKey

/-- A column is named: neither by an empty text nor by `NULL` in any case of its letters. -/
def IsName (value : String) : Prop :=
  value ≠ "" ∧ value.toList.map Char.toLower ≠ ['n', 'u', 'l', 'l']

theorem isName_iff {value : String} : IsName value ↔ isAbsent value = false := by
  simp [IsName, isAbsent, isNullWord, sameLetters]

theorem ForeignKeyPart.isWhole_iff {part : ForeignKeyPart} :
    part.isWhole = true ↔ IsName part.column ∧ IsName part.referencedColumn := by
  simp [isWhole, isName_iff]

theorem ForeignKeyPart.conflict?_eq_none_iff {first part : ForeignKeyPart} :
    first.conflict? part = none ↔
    part.referencedTable = first.referencedTable ∧ part.onDelete = first.onDelete ∧
      part.onUpdate = first.onUpdate := by
  by_cases ht : part.referencedTable = first.referencedTable <;> by_cases hd :
    part.onDelete = first.onDelete <;>
    simp [conflict?, ht, hd]

namespace ForeignKey

/-- The parts of each key agree on what it refers to, and each of them names both columns of its
pair. -/
structure Sound (parts : List ForeignKeyPart) : Prop where
  referencedTable : Agree (·.constraint) (·.referencedTable) parts
  onDelete : Agree (·.constraint) (·.onDelete) parts
  onUpdate : Agree (·.constraint) (·.onUpdate) parts
  pairs : ∀ part ∈ parts, IsName part.column ∧ IsName part.referencedColumn

def named (name : String) (parts : List ForeignKeyPart) : List ForeignKeyPart :=
  parts.filter fun part => part.constraint = name

/-- The parts that a defect of a foreign key speaks of. -/
inductive Evidence (parts : List ForeignKeyPart) : Defect → Prop where
  | referencedTables {first part : ForeignKeyPart} (hf : first ∈ parts) (hp : part ∈ parts)
    (hn : first.constraint = part.constraint) (ht : first.referencedTable ≠ part.referencedTable) :
    Evidence parts
      (.conflict .foreignKey first.constraint
        (.referencedTables first.referencedTable part.referencedTable))
  | actions {first part : ForeignKeyPart} (hf : first ∈ parts) (hp : part ∈ parts)
    (hn : first.constraint = part.constraint) (ha : first.onDelete ≠ part.onDelete ∨
      first.onUpdate ≠ part.onUpdate) :
    Evidence parts (.conflict .foreignKey first.constraint .actions)
  | uneven {name : String} {columns referenced : Nat} (hp : named name parts ≠ [])
    (hc : columns = (named name parts).countP fun part => !isAbsent part.column)
    (hr : referenced = (named name parts).countP fun part => !isAbsent part.referencedColumn)
    (hu : columns ≠ referenced ∨ columns = 0) :
    Evidence parts (.unevenForeignKey name columns referenced)
  | halfPair {name : String} {i : Nat} {part : ForeignKeyPart}
      (hi : (named name parts)[i]? = some part)
    (hw : part.isWhole = false) :
    Evidence parts (.conflict .foreignKey name (.halfPair (i + 1)))

variable {table : String} {parts : List ForeignKeyPart} {group : NameGroup ForeignKeyPart}
  {defect : Defect}

/-- Evidence of any defect is against soundness. -/
theorem Evidence.not_sound (h : Evidence parts defect) : ¬ Sound parts := by
  intro hs
  have hw : ∀ part ∈ parts, isAbsent part.column = false ∧
      isAbsent part.referencedColumn = false := by
    simpa only [isName_iff] using hs.pairs
  cases h with
  | referencedTables hf hp hn ht => exact ht (hs.referencedTable _ hf _ hp hn)
  | actions hf hp hn ha =>
    rcases ha with hd | hu
    · exact hd (hs.onDelete _ hf _ hp hn)
    · exact hu (hs.onUpdate _ hf _ hp hn)
  | @uneven name columns referenced hp hc hr hu =>
    -- Each part counts on both sides.
    have hn : ∀ part ∈ named name parts, isAbsent part.column = false ∧
        isAbsent part.referencedColumn = false :=
      fun part hm => hw part (List.mem_of_mem_filter hm)
    rw [List.countP_eq_length.mpr fun part hm => by simp [(hn part hm).1]] at hc
    rw [List.countP_eq_length.mpr fun part hm => by simp [(hn part hm).2]] at hr
    have hl := List.length_pos_iff.mpr hp
    omega
  | halfPair hi hh =>
    have hm := hw _ (List.mem_of_mem_filter (List.mem_of_getElem? hi))
    simp [ForeignKeyPart.isWhole, hm.1, hm.2] at hh

/-- A group without a defect agrees with its first part, and its pairs are whole. -/
theorem agrees_of_defect?_eq_none (h : defect? group = none) :
    (∀ part ∈ group.rest, group.first.conflict? part = none) ∧
    ∀ part ∈ group.items, part.isWhole = true := by
  simp only [defect?] at h
  split at h
  · cases h
  · rename_i hr
    split at h
    · cases h
    · split at h
      · cases h
      · rename_i hi
        exact ⟨List.findSome?_eq_none_iff.mp hr, by simpa using hi⟩

theorem sound_of_ofParts {keys : List ForeignKey} (h : ofParts table parts = .ok keys) :
    Sound (parts.filter fun part => part.table = table) := by
  have hg : ∀ group ∈ groupsBy (·.constraint) (parts.filter fun part => part.table = table),
      (∀ part ∈ group.rest, part.referencedTable = group.first.referencedTable ∧
        part.onDelete = group.first.onDelete ∧ part.onUpdate = group.first.onUpdate) ∧
      ∀ part ∈ group.items, IsName part.column ∧ IsName part.referencedColumn := by
    intro group hm
    obtain ⟨key, hk⟩ := exists_result_of_mem h hm
    obtain ⟨hr, hw⟩ := agrees_of_defect?_eq_none (eq_of_ofGroup hk).1
    simp only [ForeignKeyPart.conflict?_eq_none_iff] at hr
    simp only [ForeignKeyPart.isWhole_iff] at hw
    exact ⟨hr, hw⟩
  constructor
  · exact agree_of_groups fun group hm part hp => ((hg group hm).1 part hp).1
  · exact agree_of_groups fun group hm part hp => ((hg group hm).1 part hp).2.1
  · exact agree_of_groups fun group hm part hp => ((hg group hm).1 part hp).2.2
  · intro part hp
    obtain ⟨group, hm, hi⟩ := exists_group_of_mem (·.constraint) hp
    exact (hg group hm).2 part hi

/-- How two parts disagree. -/
theorem evidence_of_conflict? {first part : ForeignKeyPart} {how : Conflict} (hf : first ∈ parts)
    (hp : part ∈ parts) (hn : first.constraint = part.constraint)
    (h : first.conflict? part = some how) :
    Evidence parts (.conflict .foreignKey first.constraint how) := by
  unfold ForeignKeyPart.conflict? at h
  split at h
  · rename_i ht
    cases h
    exact .referencedTables hf hp hn fun he => ht he.symm
  · split at h
    · rename_i ha
      cases h
      exact .actions hf hp hn (ha.imp (fun hd he => hd he.symm) fun hu he => hu he.symm)
    · cases h

/-- A defect of a foreign key is found among the parts of its name. -/
theorem evidence_of_defect? (hg : group ∈ groupsBy (·.constraint) parts)
    (h : defect? group = some defect) :
    Evidence parts defect := by
  have hi : group.items = named group.first.constraint parts := items_of_mem_groupsBy hg
  have hm := mem_of_mem_groupsBy hg
  simp only [defect?] at h
  split at h
  · rename_i how hf
    cases h
    obtain ⟨part, hp, hc⟩ := List.exists_of_findSome?_eq_some hf
    have hp : part ∈ group.items := List.mem_cons_of_mem _ hp
    exact evidence_of_conflict? (hm _ group.first_mem_items) (hm _ hp)
      (name_of_mem_group hg hp).symm hc
  · split at h
    · rename_i hu
      cases h
      have hne : named group.first.constraint parts ≠ [] := hi ▸ List.cons_ne_nil _ _
      exact .uneven hne (by rw [hi]) (by rw [hi]) hu
    · split at h
      · rename_i i hf
        cases h
        obtain ⟨hl, hw, -⟩ := List.findIdx?_eq_some_iff_getElem.mp hf
        have hs : (named group.first.constraint parts)[i]? = some group.items[i] := by
          rw [← hi, List.getElem?_eq_getElem hl]
        exact .halfPair hs (by simpa using hw)
      · cases h

theorem evidence_of_ofParts (h : ofParts table parts = .error defect) :
    Evidence (parts.filter fun part => part.table = table) defect := by
  obtain ⟨group, hg, hf⟩ := (mapM_eq_error_iff.mp h).exists_item
  exact evidence_of_defect? hg (ofGroup_eq_error_iff.mp hf)

end ForeignKey

namespace Index

variable {table : String} {parts : List IndexPart}

theorem agree_of_ofParts {indexes : List Index} (h : ofParts table parts = .ok indexes) :
    Agree (·.index) (·.isUnique) (parts.filter fun part => part.table = table) := by
  refine agree_of_groups fun group hg => ?_
  obtain ⟨index, hi⟩ := exists_result_of_mem h hg
  exact (eq_of_ofGroup hi).1

/-- Differing uniqueness is reported only if two parts of one index differ in it. -/
theorem exists_of_ofParts_eq_error {defect : Defect} (h : ofParts table parts = .error defect) :
    ∃ first ∈ parts.filter (fun part => part.table = table),
    ∃ part ∈ parts.filter (fun part => part.table = table),
      first.index = part.index ∧ first.isUnique ≠ part.isUnique ∧
        defect = .conflict .index first.index .uniqueness := by
  obtain ⟨group, hg, hf⟩ := (mapM_eq_error_iff.mp h).exists_item
  have hm := mem_of_mem_groupsBy hg
  unfold ofGroup at hf
  split at hf
  · rename_i hu
    cases hf
    obtain ⟨part, hp, hne⟩ : ∃ part ∈ group.rest, part.isUnique ≠
      group.first.isUnique := by simpa using hu
    have hp : part ∈ group.items := List.mem_cons_of_mem _ hp
    exact ⟨group.first, hm _ group.first_mem_items, part, hm _ hp, (name_of_mem_group hg hp).symm,
      hne.symm, rfl⟩
  · cases hf

end Index
end CatalogDdl
