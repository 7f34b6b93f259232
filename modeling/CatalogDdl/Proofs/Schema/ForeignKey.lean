import CatalogDdl.Proofs.Schema.Agree

/-!
# The foreign keys of a table

Each name among the parts that a table owns gives it one foreign key. The pairs of columns of the
key are those of the parts of its name, in their order, so no pair is lost or moved to another key.
-/
namespace CatalogDdl.ForeignKey

/-- The key has a pair of columns for each part, at the same place, and all parts say the rest of
it. -/
structure ComposedOf (key : ForeignKey) (parts : List ForeignKeyPart) : Prop where
  nonempty : key.columns ≠ []
  length_eq : key.columns.length = key.referencedColumns.length
  pairs : key.columns.zip key.referencedColumns = parts.map fun part =>
    (part.column, part.referencedColumn)
  table : ∀ part ∈ parts, part.table = key.table
  referencedTable : ∀ part ∈ parts, part.referencedTable = key.referencedTable
  onDelete : ∀ part ∈ parts, part.onDelete = key.onDelete
  onUpdate : ∀ part ∈ parts, part.onUpdate = key.onUpdate

variable {table : String} {parts others : List ForeignKeyPart} {keys : List ForeignKey}
  {key : ForeignKey}

theorem composedOf_of_ofGroup {group : NameGroup ForeignKeyPart} (h : ofGroup group = .ok key)
    (ht : ∀ part ∈ group.items, part.table = table) : key.ComposedOf group.items := by
  obtain ⟨hd, rfl⟩ := eq_of_ofGroup h
  obtain ⟨hr, -⟩ := agrees_of_defect?_eq_none hd
  simp only [ForeignKeyPart.conflict?_eq_none_iff] at hr
  constructor
  · exact List.cons_ne_nil _ _
  · rw [List.length_map, List.length_map]
  · exact List.zip_map'
  · exact fun part hp => (ht part hp).trans (ht _ group.first_mem_items).symm
  · exact List.forall_mem_cons.mpr ⟨rfl, fun part hp => (hr part hp).1⟩
  · exact List.forall_mem_cons.mpr ⟨rfl, fun part hp => (hr part hp).2.1⟩
  · exact List.forall_mem_cons.mpr ⟨rfl, fun part hp => (hr part hp).2.2⟩

/-- A key of a table is composed of the parts of its name that the table owns. -/
theorem composedOf_of_mem (h : ofParts table parts = .ok keys) (hk : key ∈ keys) :
    key.ComposedOf (named key.name (parts.filter fun part => part.table = table)) := by
  obtain ⟨group, hg, hf⟩ := exists_group h hk
  have ht : ∀ part ∈ group.items, part.table = table := by
    intro part hp
    rw [hg] at hp
    simpa using (List.mem_filter.mp (List.mem_of_mem_filter hp)).2
  have hc := composedOf_of_ofGroup hf ht
  rwa [hg] at hc

theorem exists_ofParts_iff : (∃ keys, ofParts table parts = .ok keys) ↔
    Sound (parts.filter fun part => part.table = table) :=
  exists_ok_iff_of (fun _ => sound_of_ofParts) fun _ h => (evidence_of_ofParts h).not_sound

theorem firstSeen_of_ofParts (h : ofParts table parts = .ok keys) :
    FirstSeen ((parts.filter fun part => part.table = table).map (·.constraint))
      (keys.map (·.name)) := by
  rw [names_of_ofParts h]
  exact firstSeen_eraseDups _

/-- The keys have as many pairs of columns as there are parts. -/
theorem length_pairs (hf : FirstSeen (parts.map (·.constraint)) (keys.map (·.name)))
    (hc : ∀ key ∈ keys, key.ComposedOf (named key.name parts)) :
    (keys.map fun key => (key.columns.zip key.referencedColumns).length).sum = parts.length := by
  have hl : ∀ key ∈ keys, (key.columns.zip key.referencedColumns).length =
      (named key.name parts).length := by
    intro key hk
    rw [(hc key hk).pairs, List.length_map]
  have hm : ∀ part ∈ parts, part.constraint ∈ keys.map (·.name) := by
    intro part hp
    exact (hf.mem_iff _).mpr (List.mem_map_of_mem hp)
  calc (keys.map fun key => (key.columns.zip key.referencedColumns).length).sum
      = (keys.map fun key => (named key.name parts).length).sum := by rw [List.map_congr_left hl]
    _ = ((keys.map (·.name)).flatMap fun name => named name parts).length := by
      rw [List.length_flatMap, List.map_map]
      rfl
    _ = parts.length := (flatMap_filter_perm hf.nodup hm).length_eq

/-- A table has foreign keys if and only if its parts are sound. There is one key for each name, in
the order in which the names first occur. It has the pairs of columns of the parts of its name, at
least one and in their order, and all of these parts agree with the rest of it. Each part gives one
pair. Parts of other tables make no difference, wherever they stand. -/
theorem keys_by_name (table : String) (parts : List ForeignKeyPart) :
    ((∃ keys, ofParts table parts = .ok keys) ↔
      Sound (parts.filter fun part => part.table = table)) ∧
    (∀ keys, ofParts table parts = .ok keys →
      FirstSeen ((parts.filter fun part => part.table = table).map (·.constraint))
        (keys.map (·.name)) ∧
      (∀ key ∈ keys,
        key.ComposedOf (named key.name (parts.filter fun part => part.table = table))) ∧
      (keys.map fun key => (key.columns.zip key.referencedColumns).length).sum =
        (parts.filter fun part => part.table = table).length) ∧
    ∀ others, others.filter (fun part => part.table = table) =
      parts.filter (fun part => part.table = table) →
      ofParts table others = ofParts table parts := by
  refine ⟨exists_ofParts_iff, fun keys h => ?_, fun others he => ?_⟩
  · have hf := firstSeen_of_ofParts h
    have hc : ∀ key ∈ keys,
        key.ComposedOf (named key.name (parts.filter fun part => part.table = table)) :=
      fun key hk => composedOf_of_mem h hk
    exact ⟨hf, hc, length_pairs hf hc⟩
  · rw [← ofParts_owned, he, ofParts_owned]

/-- Two keys of `T`, one of them over two columns, with a part of the other key and one of `U`
between its parts. -/
def sampleParts : List ForeignKeyPart :=
  [⟨"K", "T", "A", "V", "P", .cascade, .noAction⟩, ⟨"L", "T", "B", "W", "P", .noAction, .noAction⟩,
    ⟨"K", "U", "A", "W", "P", .noAction, .setNull⟩, ⟨"K", "T", "C", "V", "Q", .cascade, .noAction⟩]

def sampleKeys : List ForeignKey :=
  [⟨"K", "T", ["A", "C"], "V", ["P", "Q"], .cascade, .noAction⟩,
    ⟨"L", "T", ["B"], "W", ["P"], .noAction, .noAction⟩]

/-- Of four parts three make the keys of `T`, and without the part of `U` the keys are the same. -/
theorem keys_by_name_sample : ofParts "T" sampleParts = .ok sampleKeys ∧
    FirstSeen ["K", "L", "K"] (sampleKeys.map (·.name)) ∧
    (sampleKeys.map fun key => (key.columns.zip key.referencedColumns).length).sum = 3 ∧
    ofParts "T" (sampleParts.eraseIdx 2) = .ok sampleKeys := by
  have hk : ofParts "T" sampleParts = .ok sampleKeys := rfl
  obtain ⟨-, hs, ho⟩ := keys_by_name "T" sampleParts
  obtain ⟨hf, -, hl⟩ := hs _ hk
  exact ⟨hk, hf, hl, (ho _ (by decide)).trans hk⟩

end CatalogDdl.ForeignKey
