import CatalogDdl.Proofs.Files.Write

/-!
# One file at several places

A write is seen at every place where the file stands that it goes to, and nowhere else. Which places
have a file in common does not change with it, nor does what may be done with a file.
-/
namespace CatalogDdl.FileTree

variable {tree other written : FileTree} {place there : List String} {bytes : ByteArray}
  {number : Nat} {file : File}

def file? (tree : FileTree) (place : List String) : Option File :=
  match tree.node? place with
  | some (.file number) => some (tree.file number)
  | _ => none

/-- The places are one, or one file stands at both. -/
def Same (tree : FileTree) (place there : List String) : Prop :=
  place = there ∨
    ∃ number, tree.node? place = some (.file number) ∧ tree.node? there = some (.file number)

/-- What may be done with the file at a place, or with one that is made there. -/
def rightsAt (tree : FileTree) (place : List String) : Rights :=
  (tree.file? place).elim {} File.rights

def Takes (tree : FileTree) (place : List String) : Prop :=
  match tree.node? place with
  | some (.file number) => (tree.file number).rights.write = true
  | some _ => False
  | none => tree.takesNew place.dropLast = true

theorem file?_of_node? (h : tree.node? place = some (.file number)) :
    tree.file? place = some (tree.file number) := by
  rw [file?, h]

theorem Same.refl (tree : FileTree) (place : List String) : tree.Same place place := .inl rfl

theorem Same.symm (h : tree.Same place there) : tree.Same there place := by
  rcases h with rfl | ⟨number, hp, ht⟩
  · exact .refl tree place
  · exact .inr ⟨number, ht, hp⟩

theorem Same.trans {third : List String} (h : tree.Same place there) (ht : tree.Same there third) :
    tree.Same place third := by
  rcases h with rfl | ⟨number, hp, hn⟩
  · exact ht
  · rcases ht with rfl | ⟨other, ho, ht⟩
    · exact .inr ⟨number, hp, hn⟩
    · rw [hn] at ho
      cases ho
      exact .inr ⟨number, hp, ht⟩

theorem Same.file?_eq (h : tree.Same place there) : tree.file? place = tree.file? there := by
  rcases h with rfl | ⟨number, hp, ht⟩
  · rfl
  · rw [file?_of_node? hp, file?_of_node? ht]

/-- Where a file can be written it is stored. -/
theorem exists_store (h : tree.Takes place) (bytes : ByteArray) :
    ∃ written, tree.store place bytes = some written := by
  unfold Takes at h
  unfold store
  cases hn : tree.node? place with
  | none =>
    simp only [hn] at h
    exact ⟨_, if_pos h⟩
  | some node =>
    cases node with
    | file number =>
      simp only [hn] at h
      exact ⟨_, if_pos h⟩
    | folder => simp [hn] at h
    | link => simp [hn] at h

theorem store_eq_none (h : ¬ tree.Takes place) (bytes : ByteArray) :
    tree.store place bytes = none := by
  unfold Takes at h
  unfold store
  cases hn : tree.node? place with
  | none =>
    simp only [hn] at h
    exact if_neg h
  | some node =>
    cases node with
    | file number =>
      simp only [hn] at h
      exact if_neg h
    | folder => rfl
    | link => rfl

theorem exists_write {path : String} {made : FileTree} (hm : tree.makeAbove path = .ok made)
    (hr : made.resolve path = .ok place) (ht : made.Takes place) (bytes : ByteArray) :
    ∃ written, tree.write path bytes = .ok written := by
  obtain ⟨written, hs⟩ := exists_store ht bytes
  exact ⟨written, write_eq_ok_iff.mpr ⟨made, place, hm, hr, hs⟩⟩

theorem write_eq_error {path : String} {made : FileTree} (hm : tree.makeAbove path = .ok made)
    (h : ∀ place, made.resolve path = .ok place → ¬ made.Takes place) (bytes : ByteArray) :
    tree.write path bytes = .error made := by
  rw [write, hm]
  change Except.bind (.ok made) _ = _
  rw [Except.bind]
  cases hr : made.resolve path with
  | error fault => rfl
  | ok place => simp only [store_eq_none (h place hr)]

/-- What storing bytes at a place comes to, apart from the numbers of files. -/
structure Stored (tree : FileTree) (place : List String) (bytes : ByteArray) (written : FileTree) :
    Prop where
  ways : SameWays tree written
  same : ∀ first second, written.Same first second ↔ tree.Same first second
  file : written.file? place = some { bytes, rights := tree.rightsAt place }
  others : ∀ there, ¬ tree.Same place there → written.file? there = tree.file? there
  takes : ∀ there, written.Takes there ↔ tree.Takes there
  names : ∀ folder (keeps : String → Bool),
    (∀ name, place = folder ++ [name] → keeps name = false) →
      (written.names folder).filter keeps = (tree.names folder).filter keeps

/-- A file that was there before gets new bytes. -/
theorem stored_setFile (hn : tree.node? place = some (.file number)) (bytes : ByteArray) :
    tree.Stored place bytes (tree.setFile number { tree.file number with bytes }) where
  ways := ⟨rfl, fun _ => rfl⟩
  same _ _ := .rfl
  file := by
    rw [file?_of_node? (by exact hn), file_setFile_self, rightsAt, file?_of_node? hn]
    rfl
  others there ht := by
    simp only [file?, node?_setFile]
    split
    · rename_i other ho
      have hne : other ≠ number := by
        rintro rfl
        exact ht (.inr ⟨_, hn, ho⟩)
      rw [file_setFile_of_ne _ _ hne]
    · rfl
  takes there := by
    simp only [Takes, node?_setFile]
    split
    · rename_i other ho
      by_cases hne : other = number
      · subst hne
        rw [file_setFile_self]
      · rw [file_setFile_of_ne _ _ hne]
    · exact .rfl
    · rfl
  names _ _ _ := rfl

/-- Something new changes no list of names from which its own name is left out. -/
theorem names_put_new (hn : tree.node? place = none) (node : Node) {folder : List String}
    {keeps : String → Bool} (hk : ∀ name, place = folder ++ [name] → keeps name = false) :
    ((tree.put place node).names folder).filter keeps = (tree.names folder).filter keeps := by
  have hp := ne_nil_of_node?_eq_none hn
  rw [node?, if_neg hp] at hn
  have he : (tree.entries.filter fun entry => entry.1 ≠ place) = tree.entries := by
    refine List.filter_eq_self.mpr fun entry hm => decide_eq_true fun he => ?_
    have hne := List.lookup_eq_none_iff.mp hn entry hm
    simp [he] at hne
  obtain ⟨front, last, rfl⟩ := (List.eq_nil_or_concat place).resolve_left hp
  rw [List.concat_eq_append] at *
  simp only [names, put, he, List.filterMap_cons, List.dropLast_concat, List.getLast?_concat]
  by_cases hf : front = folder
  · subst hf
    simp [hk last rfl]
  · simp [hf]

/-- A new file stands at the place, and everything else is as it was. -/
structure Added (tree : FileTree) (place : List String) (file : File) (written : FileTree) :
    Prop where
  ways : SameWays tree written
  before : tree.node? place = none
  stands : written.node? place = some (.file tree.fresh)
  elsewhere : ∀ there, there ≠ place → written.node? there = tree.node? there
  holds : written.file tree.fresh = file
  files : ∀ other, other ≠ tree.fresh → written.file other = tree.file other

theorem added_new (hn : tree.node? place = none) (ht : tree.takesNew place.dropLast = true)
    (bytes : ByteArray) : tree.Added place { bytes }
      ((tree.put place (.file tree.fresh)).setFile tree.fresh { bytes }) where
  ways := by
    have hs : tree.store place bytes =
        some ((tree.put place (.file tree.fresh)).setFile tree.fresh { bytes }) := by
      simp only [store, hn, ht, if_true]
    exact sameWays_store hs
  before := hn
  stands := node?_store_new hn { bytes }
  elsewhere _ h := node?_put_of_ne tree _ h
  holds := file_setFile_self _ _ _
  files _ h := file_setFile_of_ne _ _ h

namespace Added

variable (h : tree.Added place file written)
include h

/-- The new place has no file in common with any other, as its number is new. -/
theorem node?_eq_file (hn : written.node? there = some (.file number)) :
    there = place ∧ number = tree.fresh ∨
      there ≠ place ∧ tree.node? there = some (.file number) ∧ number ≠ tree.fresh := by
  by_cases hp : there = place
  · subst hp
    rw [h.stands] at hn
    cases hn
    exact .inl ⟨rfl, rfl⟩
  · rw [h.elsewhere there hp] at hn
    refine .inr ⟨hp, hn, ?_⟩
    rintro rfl
    exact tree.node?_ne_fresh there hn

theorem node?_eq (hn : tree.node? there = some (.file number)) :
    written.node? there = some (.file number) := by
  have hp : there ≠ place := by
    rintro rfl
    rw [h.before] at hn
    cases hn
  exact (h.elsewhere there hp).trans hn

theorem same_iff (first second : List String) :
    written.Same first second ↔ tree.Same first second := by
  constructor
  · rintro (rfl | ⟨number, hf, hs⟩)
    · exact .refl tree first
    · rcases h.node?_eq_file hf with ⟨rfl, rfl⟩ | ⟨-, hf, hk⟩
      · rcases h.node?_eq_file hs with ⟨rfl, -⟩ | ⟨-, -, hk⟩
        · exact .refl tree _
        · exact absurd rfl hk
      · rcases h.node?_eq_file hs with ⟨-, he⟩ | ⟨-, hs, -⟩
        · exact absurd he hk
        · exact .inr ⟨number, hf, hs⟩
  · rintro (rfl | ⟨number, hf, hs⟩)
    · exact .refl written first
    · exact .inr ⟨number, h.node?_eq hf, h.node?_eq hs⟩

theorem file_eq (hn : tree.node? there = some (.file number)) :
    written.file number = tree.file number := by
  apply h.files
  rintro rfl
  exact tree.node?_ne_fresh there hn

theorem file?_eq (hp : there ≠ place) : written.file? there = tree.file? there := by
  unfold file?
  rw [h.elsewhere there hp]
  split
  · rename_i number hm
    rw [h.file_eq hm]
  · rfl

theorem takes_iff (hp : there ≠ place) : written.Takes there ↔ tree.Takes there := by
  simp only [Takes, h.elsewhere there hp, h.ways.takesNew_eq]
  split
  · rename_i number hm
    rw [h.file_eq hm]
  · exact .rfl
  · exact .rfl

end Added

/-- A file is made where nothing stood. -/
theorem stored_new (hn : tree.node? place = none) (ht : tree.takesNew place.dropLast = true)
    (bytes : ByteArray) : tree.Stored place bytes
      ((tree.put place (.file tree.fresh)).setFile tree.fresh { bytes }) := by
  have h := added_new hn ht bytes
  constructor
  · exact h.ways
  · exact h.same_iff
  · rw [file?_of_node? h.stands, h.holds, rightsAt, file?, hn]
    rfl
  · intro there hs
    exact h.file?_eq fun he => hs (he ▸ .refl tree there)
  · intro there
    by_cases hp : there = place
    · subst hp
      simp only [Takes, h.stands, h.holds, hn, ht]
    · exact h.takes_iff hp
  · intro folder keeps hk
    exact names_put_new hn _ hk

theorem stored_of_store (h : tree.store place bytes = some written) :
    tree.Stored place bytes written := by
  rcases store_cases h with ⟨number, hn, -, rfl⟩ | ⟨hn, ht, rfl⟩
  · exact stored_setFile hn bytes
  · exact stored_new hn ht bytes

/-- The same folders and links stand at the same places, and equal files. -/
structure Alike (tree other : FileTree) : Prop where
  ways : SameWays tree other
  file? : ∀ place, other.file? place = tree.file? place

theorem Alike.refl (tree : FileTree) : Alike tree tree := ⟨.refl tree, fun _ => rfl⟩

end CatalogDdl.FileTree
