import CatalogDdl.Dump.Basic
import CatalogDdl.Proofs.Files.Walk

/-!
# What a dump folder holds

The listings of a dump folder are what their paths lead to, and its definitions are what the names
in the folder of their kind lead to.
-/
namespace CatalogDdl

/-- Each listing is looked up as it was found. -/
theorem lookup_filterMap_listings (f : Listing → Option Contents) (listings : List Listing)
    (listing : Listing) : (listings.filterMap fun other => (f other).map (Prod.mk other)).lookup
      listing = if listing ∈ listings then f listing else none := by
  induction listings with
  | nil => rfl
  | cons other rest ih =>
    rw [List.filterMap_cons]
    by_cases ho : listing = other
    · subst ho
      cases hf : f listing with
      | none => simp [ih, hf]
      | some contents => simp
    · have hb : (listing == other) = false := by simpa using ho
      cases f other with
      | none => simp [ih, ho]
      | some contents => simp [List.lookup_cons, ih, ho, hb]

namespace FileTree

variable {tree : FileTree} {path : String} {bytes : ByteArray} {contents : Contents}

theorem read_of_contents? (h : tree.contents? path = some contents) :
    tree.read path = contents := by
  unfold contents? at h
  unfold read
  cases hr : tree.resolve path with
  | error fault => simp [hr] at h
  | ok place =>
    rw [hr] at h
    simp only [h, Option.getD_some]

/-- What is read at a path is what the path leads to. -/
theorem read_eq_ok_iff : tree.read path = .ok bytes ↔ tree.contents? path = some (.ok bytes) := by
  refine ⟨fun h => ?_, read_of_contents?⟩
  unfold read at h
  unfold contents?
  cases hr : tree.resolve path with
  | error fault => simp [hr] at h
  | ok place =>
    simp only [hr] at h ⊢
    cases hc : tree.contentsAt place with
    | none => simp [hc] at h
    | some contents => rw [← h, hc, Option.getD_some]

/-- What is read of a listing, if it is read. -/
def listingAt? (tree : FileTree) (path : String) (listing : Listing) : Option Contents :=
  let file := Path.join path listing.file
  if listing = .columns || (tree.contents? file).isSome then some (tree.read file) else none

theorem listings_dumpFolder (tree : FileTree) (path : String) : (tree.dumpFolder path).listings =
    Listing.all.filterMap fun listing => (tree.listingAt? path listing).map (Prod.mk listing) := by
  refine List.filterMap_congr fun listing _ => ?_
  dsimp only [listingAt?]
  split <;> rfl

theorem listing?_dumpFolder (tree : FileTree) (path : String) (listing : Listing) :
    (tree.dumpFolder path).listing? listing = tree.listingAt? path listing := by
  rw [Folder.listing?, listings_dumpFolder, lookup_filterMap_listings, if_pos listing.mem_all]

theorem listingAt?_of_contents? {listing : Listing}
    (h : tree.contents? (Path.join path listing.file) = some contents) :
    tree.listingAt? path listing = some contents := by
  rw [listingAt?, h, Option.isSome_some, Bool.or_true, if_pos rfl, read_of_contents? h]

theorem definitions_dumpFolder (tree : FileTree) (path : String) (kind : Routine.Kind) :
    (tree.dumpFolder path).definitions kind = tree.definitionEntries path kind := by
  cases kind <;> rfl

theorem contents?_eq_some_iff : tree.contents? path = some contents ↔
    ∃ place, tree.resolve path = .ok place ∧ tree.contentsAt place = some contents := by
  unfold contents?
  cases tree.resolve path <;> simp

theorem list_eq_ok_iff {names : List String} : tree.list path = .ok names ↔ ∃ place rights,
    tree.resolve path = .ok place ∧ tree.node? place = some (.folder rights) ∧
      rights.read = true ∧ names = tree.names place := by
  simp only [list, bind_eq_ok_iff, folder_eq_ok_iff]
  refine exists_congr fun place => ?_
  rw [← exists_and_left]
  refine exists_congr fun rights => ?_
  cases rights.read <;> simp [pure, Except.pure, eq_comm]

theorem listed_eq_ok_iff {names : List String} :
    tree.listed path = .ok names ↔ tree.list path = .ok names := mapError_eq_ok_iff

def readAll (tree : FileTree) (folder : String) (names : List String) : List (String × Contents) :=
  names.map fun name => (name, tree.read (folder ++ "/" ++ name))

/-- The folder at the place has the definitions of the kind, and is found by the path. -/
structure Defines (tree : FileTree) (path : String) (kind : Routine.Kind) (folder : String) :
    Prop where
  folderPath : kind.folderPath? path = some folder
  isFolder : tree.isFolder (Path.join path kind.folderName) = true

theorem definitionEntries_of_not_defines {kind : Routine.Kind}
    (h : ∀ folder, ¬ tree.Defines path kind folder) :
    tree.definitionEntries path kind = .ok [] := by
  unfold definitionEntries
  cases hp : kind.folderPath? path with
  | none => rfl
  | some folder => exact if_neg fun hf => h folder ⟨hp, hf⟩

theorem defines_or {kind : Routine.Kind} {folder : String}
    (hp : kind.folderPath? path = some folder) :
    tree.Defines path kind folder ∨ tree.definitionEntries path kind = .ok [] := by
  refine or_iff_not_imp_left.mpr fun hd => definitionEntries_of_not_defines fun other ho => ?_
  obtain rfl := Option.some.inj (hp.symm.trans ho.folderPath)
  exact hd ho

theorem Defines.definitionEntries_eq {kind : Routine.Kind} {folder : String}
    (h : tree.Defines path kind folder) : tree.definitionEntries path kind = do
      discard ((Path.searched folder).mapM tree.listed)
      let names ← tree.listed folder
      return tree.readAll folder (names.filter isDefinitionFile) := by
  simp only [definitionEntries, h.folderPath, h.isFolder, if_true]
  rfl

/-- Each of the definitions is what its name in the folder leads to. -/
theorem exists_read_of_mem {kind : Routine.Kind} {folder : String}
    {files : List (String × Contents)} {file : String × Contents}
    (hp : kind.folderPath? path = some folder)
    (hf : tree.definitionEntries path kind = .ok files) (hm : file ∈ files) :
    ∃ name, file = (name, tree.read (folder ++ "/" ++ name)) := by
  rcases tree.defines_or hp with hd | hn
  · rw [hd.definitionEntries_eq] at hf
    obtain ⟨-, -, hf⟩ := bind_eq_ok_iff.mp hf
    obtain ⟨names, -, hf⟩ := bind_eq_ok_iff.mp hf
    cases hf
    obtain ⟨name, -, rfl⟩ := List.mem_map.mp hm
    exact ⟨name, rfl⟩
  · rw [hn] at hf
    cases hf
    cases hm

end FileTree
end CatalogDdl
