import CatalogDdl.Proofs.Schema.Agree
import CatalogDdl.Proofs.Schema.Sorted

/-!
# The indexes of a table

Each name among the parts that a table owns gives it one index. Every part is a key column or an
included column of it: those with a position are the key columns in order of position, and if none
has one all parts are key columns.
-/
namespace CatalogDdl

theorem Agree.congr {α β : Type} {name : α → String} {value : α → β} {items others : List α}
    (h : ∀ item, item ∈ items ↔ item ∈ others) (ha : Agree name value items) :
    Agree name value others :=
  fun item hi other ho => ha item ((h item).mpr hi) other ((h other).mpr ho)

namespace Index

def named (name : String) (parts : List IndexPart) : List IndexPart :=
  parts.filter fun part => part.index = name

def placed (parts : List IndexPart) : List IndexPart := parts.filter fun part => part.position ≠ 0

/-- Some parts have a position, and no two of them have the same one. -/
def PlacedApart (parts : List IndexPart) : Prop :=
  placed parts ≠ [] ∧ ((placed parts).map (·.position)).Nodup

instance : DecidablePred PlacedApart := fun _ => instDecidableAnd

/-- What the columns of an index are. With a position among the parts the key columns are those of
the placed parts, sorted by position, and the other parts are included. Without one all parts are
key columns. -/
structure ComposedOf (index : Index) (parts : List IndexPart) : Prop where
  nonempty : index.columns ≠ []
  perm : (index.columns ++ index.included).Perm (parts.map (·.column))
  columns_of_placed : placed parts ≠ [] →
    ∃ sorted, StablySorted (·.position) (placed parts) sorted ∧
    index.columns = sorted.map (·.column)
  included_of_placed : placed parts ≠ [] →
    index.included = (parts.filter fun part => part.position = 0).map (·.column)
  columns_of_unplaced : placed parts = [] → index.columns = parts.map (·.column)
  included_of_unplaced : placed parts = [] → index.included = []

/-- Distinct positions leave one order for the key columns. -/
theorem ComposedOf.columns_eq {index other : Index} {parts others : List IndexPart}
    (h : index.ComposedOf parts) (ho : other.ComposedOf others) (hp : parts.Perm others)
    (ha : PlacedApart parts) : other.columns = index.columns := by
  obtain ⟨hs, hn⟩ := ha
  have hpp : (placed parts).Perm (placed others) := hp.filter _
  have hso : placed others ≠ [] := fun he => hs (by rw [he] at hpp; exact hpp.eq_nil)
  obtain ⟨sorted, hsorted, hc⟩ := h.columns_of_placed hs
  obtain ⟨sorted', hsorted', hc'⟩ := ho.columns_of_placed hso
  rw [hc, hc', hsorted.eq_of_perm hsorted' hpp hn]

variable {table : String} {parts others : List IndexPart} {indexes : List Index} {index : Index}

theorem split_of_placed (h : placed parts ≠ []) :
    split parts = (((placed parts).mergeSort fun a b => a.position ≤ b.position).map (·.column),
      (parts.filter fun part => part.position = 0).map (·.column)) := by
  have hn : ¬ (parts.all fun part => part.position = 0) = true := by simpa [placed] using h
  simp only [split, placed, if_neg hn]

theorem split_of_unplaced (h : placed parts = []) : split parts = (parts.map (·.column), []) := by
  have ha : (parts.all fun part => part.position = 0) = true := by simpa [placed] using h
  simp only [split, if_pos ha]

/-- An index is composed of the parts of its name. -/
theorem composedOf_of_ofGroup {group : NameGroup IndexPart} (h : ofGroup group = .ok index) :
    index.ComposedOf group.items := by
  obtain ⟨-, rfl⟩ := eq_of_ofGroup h
  constructor
  · exact keys_ne_nil (List.cons_ne_nil _ _)
  · exact split_perm _
  · intro hs
    rw [split_of_placed hs]
    exact ⟨_, stablySorted_mergeSort IndexPart.position _, rfl⟩
  · intro hs
    rw [split_of_placed hs]
  · intro hz
    rw [split_of_unplaced hz]
  · intro hz
    rw [split_of_unplaced hz]

theorem composedOf_of_mem (h : ofParts table parts = .ok indexes) (hi : index ∈ indexes) :
    index.ComposedOf (named index.name (parts.filter fun part => part.table = table)) := by
  obtain ⟨group, hg, hf⟩ := exists_group h hi
  have hc := composedOf_of_ofGroup hf
  rwa [hg] at hc

theorem exists_ofParts_iff : (∃ indexes, ofParts table parts = .ok indexes) ↔
    Agree (·.index) (·.isUnique) (parts.filter fun part => part.table = table) := by
  refine exists_ok_iff_of (fun _ => agree_of_ofParts) fun defect h ha => ?_
  obtain ⟨first, hf, part, hp, hn, hu, -⟩ := exists_of_ofParts_eq_error h
  exact hu (ha first hf part hp hn)

theorem firstSeen_of_ofParts (h : ofParts table parts = .ok indexes) :
    FirstSeen ((parts.filter fun part => part.table = table).map (·.index))
      (indexes.map (·.name)) := by
  rw [names_of_ofParts h]
  exact firstSeen_eraseDups _

/-- The same parts in another order make an index of the same name. -/
theorem exists_index_of_perm (hp : parts.Perm others) (h : ofParts table parts = .ok indexes)
    {rearranged : List Index} (ho : ofParts table others = .ok rearranged) (hi : index ∈ indexes) :
    ∃ other ∈ rearranged, other.name = index.name := by
  have hpo := (hp.filter fun part => part.table = table).map (·.index)
  have hm : index.name ∈ rearranged.map (·.name) := by
    rw [(firstSeen_of_ofParts ho).mem_iff, ← hpo.mem_iff, ← (firstSeen_of_ofParts h).mem_iff]
    exact List.mem_map_of_mem hi
  exact List.mem_map.mp hm

/-- A table has indexes if and only if parts of one index agree on its uniqueness. There is one
index for each name, in the order in which the names first occur, with the columns of the parts of
its name. If the listing comes in another order, an index whose parts are placed apart keeps its key
columns. -/
theorem indexes_by_name (table : String) (parts : List IndexPart) :
    ((∃ indexes, ofParts table parts = .ok indexes) ↔
      Agree (·.index) (·.isUnique) (parts.filter fun part => part.table = table)) ∧
    ∀ indexes, ofParts table parts = .ok indexes →
      FirstSeen ((parts.filter fun part => part.table = table).map (·.index))
        (indexes.map (·.name)) ∧
      (∀ index ∈ indexes,
        index.ComposedOf (named index.name (parts.filter fun part => part.table = table))) ∧
      ∀ others, parts.Perm others → ∃ rearranged, ofParts table others = .ok rearranged ∧
        ∀ index ∈ indexes, ∃ other ∈ rearranged, other.name = index.name ∧
          (PlacedApart (named index.name (parts.filter fun part => part.table = table)) →
            other.columns = index.columns) := by
  refine ⟨exists_ofParts_iff, fun indexes h => ⟨firstSeen_of_ofParts h,
    fun index hi => composedOf_of_mem h hi, ?_⟩⟩
  intro others hp
  have hpo := hp.filter fun part => part.table = table
  obtain ⟨rearranged, ho⟩ :=
    exists_ofParts_iff.mpr ((agree_of_ofParts h).congr fun _ => hpo.mem_iff)
  refine ⟨rearranged, ho, fun index hi => ?_⟩
  obtain ⟨other, hm, he⟩ := exists_index_of_perm hp h ho hi
  refine ⟨other, hm, he, fun ha => ?_⟩
  have hc := composedOf_of_mem ho hm
  rw [he] at hc
  exact (composedOf_of_mem h hi).columns_eq hc (hpo.filter _) ha

/-- Two indexes of `T` with their parts in turn, one of which has no position, and an index of
`U`. -/
def sampleParts : List IndexPart :=
  [⟨"T", "I", false, "B", 2⟩, ⟨"T", "J", true, "D", 0⟩, ⟨"U", "I", true, "X", 1⟩,
    ⟨"T", "I", false, "C", 0⟩, ⟨"T", "J", true, "A", 0⟩, ⟨"T", "I", false, "A", -1⟩]

def sampleIndexes : List Index :=
  [⟨"I", "T", false, ["A", "B"], ["C"]⟩, ⟨"J", "T", true, ["D", "A"], []⟩]

/-- The first index of the sample has the same key columns from the listing in reverse. -/
theorem indexes_by_name_sample : ofParts "T" sampleParts = .ok sampleIndexes ∧
    FirstSeen ["I", "J", "I", "J", "I"] (sampleIndexes.map (·.name)) ∧
    ∃ rearranged, ofParts "T" sampleParts.reverse = .ok rearranged ∧
      ∃ other ∈ rearranged, other.name = "I" ∧ other.columns = ["A", "B"] := by
  have hn : ["I", "J", "I", "J", "I"].eraseDups = ["I", "J"] := rfl
  have hi : ofParts "T" sampleParts = .ok sampleIndexes := by
    simp [ofParts, sampleParts, sampleIndexes, groupsBy, hn, ofGroup, split, List.mergeSort]
    rfl
  obtain ⟨-, hs⟩ := indexes_by_name "T" sampleParts
  obtain ⟨hf, -, hp⟩ := hs _ hi
  obtain ⟨rearranged, hr, ho⟩ := hp _ (List.reverse_perm _).symm
  obtain ⟨other, hm, he, hc⟩ := ho _ List.mem_cons_self
  exact ⟨hi, hf, rearranged, hr, other, hm, he, hc (by decide)⟩

end Index
end CatalogDdl
