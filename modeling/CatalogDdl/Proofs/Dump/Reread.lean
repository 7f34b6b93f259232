import CatalogDdl.Proofs.Dump.Texts
import CatalogDdl.Proofs.Files.Plain

/-!
# Reading a dump folder again

A dump is read at certain places. Where these hold what they held, and no file with a definition
came to the folders of definitions, a dump that could be read is read again.
-/
namespace CatalogDdl

namespace FileTree

variable {tree other : FileTree} {input path : String} {place : List String}

/-- The places that are read for the dump in the folder `input`: where the paths of the listings
lead, all the places of definitions, and where the paths of the definitions lead. -/
inductive Reads (tree : FileTree) (input : String) : List String → Prop
  | listing (listing : Listing) {place : List String}
      (hr : tree.resolve (Path.join input listing.file) = .ok place) : Reads tree input place
  | entry {kind : Routine.Kind} {folder name : String} {place : List String}
      (hd : tree.Defines input kind folder) (hr : tree.resolve folder = .ok place)
      (hn : isDefinitionFile name = true) : Reads tree input (place ++ [name])
  | definition {kind : Routine.Kind} {folder name : String} {names : List String}
      {place : List String} (hd : tree.Defines input kind folder)
      (hl : tree.list folder = .ok names) (hm : name ∈ names) (hn : isDefinitionFile name = true)
      (hr : tree.resolve (folder ++ "/" ++ name) = .ok place) : Reads tree input place

theorem unslashed_folderName (kind : Routine.Kind) : Path.Unslashed kind.folderName ∧
    Path.isIdle kind.folderName = false ∧ kind.folderName ≠ ".." := by
  cases kind <;> decide

theorem unslashed_file (listing : Listing) : Path.Unslashed listing.file ∧
    Path.isIdle listing.file = false ∧ listing.file ≠ ".." := by
  cases listing <;> decide

/-- The path of a folder of definitions goes right below the folder `input`. -/
theorem Defines.beyond_eq {kind : Routine.Kind} {folder : String}
    (h : tree.Defines input kind folder) :
    (Path.steps folder).foldl Path.beyond (tree.origin folder).place =
      (Path.into input).foldl Path.beyond (tree.origin input).place ++ [kind.folderName] := by
  obtain ⟨hu, hi, hn⟩ := unslashed_folderName kind
  obtain ⟨ha, hb⟩ := Path.beyond_tidy h.folderPath
  rw [hb, origin, ha, Path.isAbsolute_join input hu, Path.steps_join input hu, List.foldl_append]
  exact Path.beyond_of_down hi hn _

/-- In a tree without links a listing is read right below the folder, and a definition one step
further down. -/
theorem Plain.place_of_reads (hp : tree.Plain) (h : tree.Reads input place) :
    ∃ names, place = (Path.into input).foldl Path.beyond (tree.origin input).place ++ names ∧
      ((∃ listing : Listing, names = [listing.file]) ∨ names.length = 2) := by
  cases h with
  | listing listing hr =>
    obtain ⟨hu, hi, hn⟩ := unslashed_file listing
    exact ⟨_, hp.resolve_join_eq hu hi hn hr, .inl ⟨listing, rfl⟩⟩
  | @entry kind folder name place hd hr hn =>
    refine ⟨[kind.folderName, name], ?_, .inr rfl⟩
    rw [hp.resolve_eq hr, hd.beyond_eq, List.append_assoc]
    rfl
  | @definition kind folder name names place hd hl hm hn hr =>
    refine ⟨[kind.folderName, name], ?_, .inr rfl⟩
    obtain ⟨above, -, ha, -, -, rfl⟩ := list_eq_ok_iff.mp hl
    obtain ⟨node, he⟩ := exists_entry_of_mem_names hm
    obtain ⟨hu, hi, hn⟩ := hp.named _ he name (by simp)
    rw [hp.resolve_append_slash_eq hu hi hn (ne_empty_of_resolve ha) hr, hd.beyond_eq,
      List.append_assoc]
    rfl

theorem contentsAt_of_file? {file : File} (h : tree.file? place = some file) :
    tree.contentsAt place =
      some (if file.rights.read then .ok file.bytes else .error (.path .denied)) := by
  unfold file? at h
  split at h
  · rename_i number hn
    cases h
    rw [contentsAt, hn]
    rfl
  · cases h

theorem node?_eq_way? (h : tree.file? place = none) : tree.node? place = tree.way? place := by
  unfold way?
  split
  · rename_i number hn
    cases (file?_of_node? hn).symm.trans h
  · rfl

/-- What is read at a place is up to what stands there. -/
theorem contentsAt_congr (hw : other.way? place = tree.way? place)
    (hf : other.file? place = tree.file? place) :
    other.contentsAt place = tree.contentsAt place := by
  cases hg : tree.file? place with
  | some file => rw [contentsAt_of_file? (hf.trans hg), contentsAt_of_file? hg]
  | none =>
    rw [contentsAt, contentsAt, node?_eq_way? (hf.trans hg), hw, ← node?_eq_way? hg]
    cases hn : tree.node? place with
    | none => rfl
    | some node =>
      cases node with
      | file number => cases (file?_of_node? hn).symm.trans hg
      | folder rights => rfl
      | link target => rfl

/-- The same is read at every path. -/
theorem Alike.contents?_eq (h : Alike tree other) (path : String) :
    other.contents? path = tree.contents? path := by
  apply Option.ext
  intro contents
  simp only [contents?_eq_some_iff, h.ways.resolve_eq_ok_iff,
    contentsAt_congr (h.ways.way? _) (h.file? _)]

/-- The second tree leaves the dump of the first one as it is. -/
structure SameReads (input : String) (tree other : FileTree) : Prop where
  ways : SameWays tree other
  file? : ∀ place, tree.Reads input place → other.file? place = tree.file? place
  names : ∀ {kind folder place}, tree.Defines input kind folder → tree.resolve folder = .ok place →
    (other.names place).filter isDefinitionFile = (tree.names place).filter isDefinitionFile

namespace SameReads

variable (h : SameReads input tree other)
include h

theorem contents?_eq (hr : ∀ place, tree.resolve path = .ok place → tree.Reads input place) :
    other.contents? path = tree.contents? path := by
  apply Option.ext
  intro contents
  rw [contents?_eq_some_iff, contents?_eq_some_iff]
  refine exists_congr fun place => ?_
  rw [h.ways.resolve_eq_ok_iff]
  refine and_congr_right fun hp => ?_
  rw [contentsAt_congr (h.ways.way? place) (h.file? place (hr place hp))]

theorem defines_iff {kind : Routine.Kind} {folder : String} :
    other.Defines input kind folder ↔ tree.Defines input kind folder := by
  have hi := h.ways.isFolder_eq (Path.join input kind.folderName)
  exact ⟨fun hd => ⟨hd.folderPath, hi ▸ hd.isFolder⟩, fun hd => ⟨hd.folderPath, hi ▸ hd.isFolder⟩⟩

theorem listed {names : List String} (hl : tree.listed path = .ok names) : ∃ place,
    tree.resolve path = .ok place ∧ names = tree.names place ∧
      other.listed path = .ok (other.names place) := by
  obtain ⟨place, rights, hr, hn, hp, rfl⟩ := list_eq_ok_iff.mp (listed_eq_ok_iff.mp hl)
  refine ⟨place, hr, rfl, listed_eq_ok_iff.mpr (list_eq_ok_iff.mpr ?_)⟩
  exact ⟨place, rights, h.ways.resolve_eq_ok_iff.mpr hr, h.ways.node?_eq_folder_iff.mpr hn, hp, rfl⟩

end SameReads
end FileTree

namespace Dump
open FileTree

variable {tree other : FileTree} {input : String} {dump : Dump}

theorem exists_bytes_of_readText {path text : String} {contents : Contents}
    (h : readText path contents = .ok text) : ∃ bytes, contents = .ok bytes := by
  cases contents with
  | error fault => cases h
  | ok bytes => exact ⟨bytes, rfl⟩

/-- A listing that was read is read again. -/
theorem readListing_reread (h : SameReads input tree other) (listing : Listing) {text : String}
    (ht : readListing input (tree.dumpFolder input) listing = .ok text) :
    readListing input (other.dumpFolder input) listing = .ok text := by
  have hc := h.contents?_eq fun _ hr => Reads.listing listing hr
  rw [readListing, listing?_dumpFolder, listingAt?] at ht ⊢
  rw [hc]
  split at ht
  · rename_i contents hl
    split at hl
    · rename_i hi
      cases hl
      obtain ⟨bytes, hb⟩ := exists_bytes_of_readText ht
      have ho := read_eq_ok_iff.mpr (hc.trans (read_eq_ok_iff.mp hb))
      rw [if_pos hi, ho, ← hb]
      exact ht
    · cases hl
  · rename_i hl
    split at hl
    · cases hl
    · rename_i hi
      rw [if_neg hi]
      exact ht

/-- The files of definitions are found again, with the same bytes. -/
theorem definitionEntries_reread (h : SameReads input tree other) {kind : Routine.Kind}
    {files : List (String × Contents)} (hf : tree.definitionEntries input kind = .ok files)
    (hb : ∀ file ∈ files, ∃ bytes, file.2 = .ok bytes) :
    other.definitionEntries input kind = .ok files := by
  by_cases hk : ∃ folder, tree.Defines input kind folder
  · obtain ⟨folder, hd⟩ := hk
    rw [hd.definitionEntries_eq] at hf
    obtain ⟨_, hs, hf⟩ := bind_eq_ok_iff.mp hf
    obtain ⟨names, hl, hf⟩ := bind_eq_ok_iff.mp hf
    cases hf
    obtain ⟨found, hs, -⟩ := bind_eq_ok_iff.mp hs
    have hso : ∃ found, (Path.searched folder).mapM other.listed = .ok found := by
      refine exists_mapM_iff.mpr fun above hm => ?_
      obtain ⟨names, ha⟩ := exists_mapM_iff.mp ⟨found, hs⟩ above hm
      obtain ⟨place, -, -, ho⟩ := h.listed ha
      exact ⟨_, ho⟩
    obtain ⟨found, hso⟩ := hso
    obtain ⟨place, hr, rfl, ho⟩ := h.listed hl
    have hrd : other.readAll folder ((tree.names place).filter isDefinitionFile) =
        tree.readAll folder ((tree.names place).filter isDefinitionFile) := by
      refine List.map_congr_left fun name hm => ?_
      obtain ⟨bytes, hbt⟩ := hb _ (List.mem_map.mpr ⟨name, hm, rfl⟩)
      obtain ⟨hm, hn⟩ := List.mem_filter.mp hm
      have hc := h.contents?_eq fun _ hp =>
        Reads.definition hd (listed_eq_ok_iff.mp hl) hm hn hp
      have ho := read_eq_ok_iff.mpr (hc.trans (read_eq_ok_iff.mp hbt))
      rw [ho, ← hbt]
    rw [(h.defines_iff.mpr hd).definitionEntries_eq, hso, ho]
    change (Except.ok _ : Except Error _) = _
    rw [h.names hd hr, hrd]
  · rw [definitionEntries_of_not_defines fun folder hd => hk ⟨folder, hd⟩] at hf
    rw [definitionEntries_of_not_defines fun folder hd => hk ⟨folder, h.defines_iff.mp hd⟩, hf]

/-- Definitions that were read are read again. -/
theorem readDefinitions_reread (h : SameReads input tree other) (kind : Routine.Kind)
    {definitions : List Routine}
    (hd : readDefinitions input (tree.dumpFolder input) kind = .ok definitions) :
    readDefinitions input (other.dumpFolder input) kind = .ok definitions := by
  rw [readDefinitions_eq_elim, definitions_dumpFolder] at hd ⊢
  cases hp : kind.folderPath? input with
  | none =>
    rw [hp] at hd
    exact hd
  | some folder =>
    rw [hp, Option.elim_some] at hd
    obtain ⟨files, hf, hm⟩ := bind_eq_ok_iff.mp hd
    have hb : ∀ file ∈ files, ∃ bytes, file.2 = .ok bytes := by
      intro file hi
      obtain ⟨routine, hr⟩ := exists_result_of_mem hm (List.mem_mergeSort.mpr hi)
      obtain ⟨text, ht, -⟩ := bind_eq_ok_iff.mp hr
      exact exists_bytes_of_readText ht
    rw [Option.elim_some, definitionEntries_reread h hf hb]
    exact hm

/-- A dump that was read once is read again. -/
theorem ofFolder_reread (h : SameReads input tree other)
    (hd : ofFolder input (tree.dumpFolder input) = .ok dump) :
    ofFolder input (other.dumpFolder input) = .ok dump := by
  simp only [ofFolder, bind_eq_ok_iff] at hd
  obtain ⟨_, hc, _, hp, _, hf, _, hi, _, hr, _, hv, _, hpd, _, hvd, he⟩ := hd
  rw [ofFolder, readListing_reread h _ hc, readListing_reread h _ hp, readListing_reread h _ hf,
    readListing_reread h _ hi, readListing_reread h _ hr, readListing_reread h _ hv,
    readDefinitions_reread h _ hpd, readDefinitions_reread h _ hvd]
  exact he

end Dump
end CatalogDdl
