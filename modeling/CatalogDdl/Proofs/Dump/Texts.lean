import CatalogDdl.Proofs.Dump.Folder

/-!
# Texts in a dump folder

A dump has nothing of the files of its folder but their texts, so that folders with the same texts
have the same dump or the same error. The listings of a dump are the texts of their files, and its
definitions are the bodies in them.
-/
namespace CatalogDdl
open Text

def Contents.text (contents : Contents) : Except ReadFault String := do
  let bytes ← contents
  match decode bytes with
  | some text => .ok text
  | none => .error .malformed

theorem Contents.text_ok {bytes : ByteArray} {s : String} (h : decode bytes = some s) :
    text (.ok bytes) = .ok s := by
  simp [text, bind, Except.bind, h]

/-- The columns are there, the definitions are listed, and what holds of each file of the dump
folder is given. -/
structure Folder.CompleteWith (holds : Contents → Prop) (folder : Folder) : Prop where
  columns : folder.listing? .columns ≠ none
  listings : ∀ listing contents, folder.listing? listing = some contents → holds contents
  definitions : ∀ kind, ∃ files, folder.definitions kind = .ok files ∧ ∀ file ∈ files, holds file.2

theorem Folder.CompleteWith.mono {holds also : Contents → Prop} {folder : Folder}
    (h : folder.CompleteWith holds) (ha : ∀ contents, holds contents → also contents) :
    folder.CompleteWith also where
  columns := h.columns
  listings listing contents hf := ha _ (h.listings listing contents hf)
  definitions kind := by
    obtain ⟨files, hd, hf⟩ := h.definitions kind
    exact ⟨files, hd, fun file hm => ha _ (hf file hm)⟩

theorem lookup_map_snd {κ α β : Type} [BEq κ] (f : α → β) (items : List (κ × α)) (key : κ) :
    (items.map (Prod.map id f)).lookup key = (items.lookup key).map f := by
  induction items with
  | nil => rfl
  | cons item rest ih =>
    rw [List.map_cons, Prod.map, id, List.lookup_cons, List.lookup_cons, ih]
    split <;> rfl

def namedTexts {κ : Type} (files : List (κ × Contents)) : List (κ × Except ReadFault String) :=
  files.map (Prod.map id Contents.text)

/-- The folders hold the same texts under the same names. -/
structure Folder.SameTexts (folder other : Folder) : Prop where
  listings : namedTexts folder.listings = namedTexts other.listings
  definitions : ∀ kind,
    (folder.definitions kind).map namedTexts = (other.definitions kind).map namedTexts

namespace Dump

variable {folder other : Folder} {path : String} {dump : Dump} {kind : Routine.Kind} {name : String}
  {bytes : ByteArray}

theorem readText_eq (path : String) (contents : Contents) :
    readText path contents = (Contents.text contents).mapError (.unreadable path) := by
  cases contents with
  | error fault => rfl
  | ok bytes =>
    simp only [readText, Contents.text, bind, Except.bind]
    cases decode bytes <;> rfl

theorem readText_of_decode {s : String} (h : decode bytes = some s) (file : String) :
    readText file (.ok bytes) = .ok s := by
  rw [readText_eq, Contents.text_ok h]
  rfl

theorem readText_of_text {contents : Contents} {s : String} (h : Contents.text contents = .ok s)
    (file : String) :
    readText file contents = .ok s := by
  rw [readText_eq, h]
  rfl

theorem readListing_congr (h : folder.SameTexts other) (path : String) (listing : Listing) :
    readListing path folder listing = readListing path other listing := by
  have hl : (folder.listing? listing).map Contents.text =
      (other.listing? listing).map Contents.text := by
    rw [Folder.listing?, Folder.listing?, ← lookup_map_snd, ← lookup_map_snd]
    exact congrArg (List.lookup listing) h.listings
  simp only [readListing, readText_eq]
  cases hf : folder.listing? listing <;> cases ho : other.listing? listing <;> simp_all

/-- The definition in a file of which the text is known. -/
def definitionOf (path : String) (kind : Routine.Kind) (file : String × Except ReadFault String) :
    Except Error Routine := do
  let text ← file.2.mapError (.unreadable (path ++ "/" ++ file.1))
  return { kind, name := routineName file.1, definition := ResultSet.body text }

theorem readDefinition_eq (path : String) (kind : Routine.Kind) :
    readDefinition path kind = definitionOf path kind ∘ Prod.map id Contents.text := by
  funext file
  rw [readDefinition, readText_eq]
  rfl

theorem readDefinitions_eq_elim (path : String) (folder : Folder) (kind : Routine.Kind) :
    readDefinitions path folder kind = (kind.folderPath? path).elim (.ok []) fun place =>
      folder.definitions kind >>= fun files =>
        (files.mergeSort fun a b => a.1 ≤ b.1).mapM (readDefinition place kind) := by
  unfold readDefinitions
  cases kind.folderPath? path <;> rfl

theorem mapM_readDefinition_eq (path : String) (kind : Routine.Kind)
    (files : List (String × Contents)) :
    (files.mergeSort fun a b => a.1 ≤ b.1).mapM (readDefinition path kind) =
      ((namedTexts files).mergeSort fun a b => a.1 ≤ b.1).mapM (definitionOf path kind) := by
  -- In what order the files are read is up to their names alone.
  have hs : (files.mergeSort fun a b => a.1 ≤ b.1).map (Prod.map id Contents.text) =
      (namedTexts files).mergeSort fun a b => a.1 ≤ b.1 := List.map_mergeSort fun _ _ _ _ => rfl
  rw [readDefinition_eq, ← List.mapM_map, hs]

theorem readDefinitions_congr (h : folder.SameTexts other) (path : String) (kind : Routine.Kind) :
    readDefinitions path folder kind = readDefinitions path other kind := by
  have hd := h.definitions kind
  simp only [readDefinitions_eq_elim, mapM_readDefinition_eq]
  cases hf : folder.definitions kind <;> cases ho : other.definitions kind <;> rw [hf, ho] at hd <;>
    simp_all [Except.map, bind, Except.bind]

theorem ofFolder_congr (h : folder.SameTexts other) (path : String) :
    ofFolder path folder = ofFolder path other := by
  simp only [ofFolder, readListing_congr h, readDefinitions_congr h]

/-- A folder with columns has a dump if each of its files has a text. -/
theorem exists_of_texts
    (h : folder.CompleteWith fun contents => ∃ s, Contents.text contents = .ok s) (path : String) :
    ∃ dump, ofFolder path folder = .ok dump := by
  have hl (listing : Listing) : ∃ s, readListing path folder listing = .ok s := by
    rw [readListing]
    cases hf : folder.listing? listing with
    | some contents =>
      obtain ⟨s, hs⟩ := h.listings listing contents hf
      exact ⟨s, readText_of_text hs _⟩
    | none =>
      have hc : listing ≠ .columns := by
        rintro rfl
        exact h.columns hf
      exact ⟨"", if_neg hc⟩
  have hd (kind : Routine.Kind) : ∃ definitions, readDefinitions path folder kind =
      .ok definitions := by
    rw [readDefinitions_eq_elim]
    cases kind.folderPath? path with
    | none => exact ⟨[], rfl⟩
    | some place =>
      obtain ⟨files, hd, hf⟩ := h.definitions kind
      rw [hd]
      refine exists_mapM_iff.mpr fun file hm => ?_
      obtain ⟨s, hs⟩ := hf file (List.mem_mergeSort.mp hm)
      rw [readDefinition, readText_of_text hs]
      exact ⟨_, rfl⟩
  obtain ⟨_, hc⟩ := hl .columns
  obtain ⟨_, hp⟩ := hl .primaryKeys
  obtain ⟨_, hf⟩ := hl .foreignKeys
  obtain ⟨_, hi⟩ := hl .indexes
  obtain ⟨_, hr⟩ := hl .procedures
  obtain ⟨_, hv⟩ := hl .views
  obtain ⟨_, hpd⟩ := hd .procedure
  obtain ⟨_, hvd⟩ := hd .view
  rw [ofFolder, hc, hp, hf, hi, hr, hv, hpd, hvd]
  exact ⟨_, rfl⟩

theorem readListing_of_ofFolder (h : ofFolder path folder = .ok dump) (listing : Listing) :
    readListing path folder listing = .ok (dump.listing listing) := by
  simp only [ofFolder, bind_eq_ok_iff] at h
  obtain ⟨_, hc, _, hp, _, hf, _, hi, _, hr, _, hv, _, -, _, -, he⟩ := h
  cases he
  cases listing <;> assumption

theorem readDefinitions_of_ofFolder (h : ofFolder path folder = .ok dump) (kind : Routine.Kind) :
    ∃ definitions, readDefinitions path folder kind = .ok definitions ∧
    definitions ⊆ dump.definitions := by
  simp only [ofFolder, bind_eq_ok_iff] at h
  obtain ⟨_, -, _, -, _, -, _, -, _, -, _, -, procedures, hp, views, hv, he⟩ := h
  cases he
  cases kind with
  | procedure => exact ⟨procedures, hp, List.subset_append_left _ _⟩
  | view => exact ⟨views, hv, List.subset_append_right _ _⟩

/-- The text of a listing is the one in its file. -/
theorem decode_listing (h : ofFolder path folder = .ok dump) {listing : Listing}
    (hf : folder.listing? listing = some (.ok bytes)) :
    decode bytes = some (dump.listing listing) := by
  have hr := readListing_of_ofFolder h listing
  simp only [readListing, hf, readText] at hr
  split at hr
  · rename_i s hd
    rw [hd, Except.ok.inj hr]
  · cases hr

/-- The definition of a routine is the body of the text in its file. -/
theorem exists_definitions (h : ofFolder path folder = .ok dump) {place : String}
    (hp : kind.folderPath? path = some place) : ∃ files, folder.definitions kind = .ok files ∧
      ∀ name bytes, (name, .ok bytes) ∈ files → ∃ s, decode bytes = some s ∧
        ⟨kind, routineName name, ResultSet.body s⟩ ∈ dump.definitions := by
  obtain ⟨definitions, hr, hs⟩ := readDefinitions_of_ofFolder h kind
  rw [readDefinitions_eq_elim, hp, Option.elim_some, bind_eq_ok_iff] at hr
  obtain ⟨files, hf, hr⟩ := hr
  refine ⟨files, hf, fun name bytes hm => ?_⟩
  obtain ⟨routine, hd, hr⟩ :=
    exists_left_of_mem (mapM_eq_ok_iff.mp hr).flip (List.mem_mergeSort.mpr hm)
  simp only [readDefinition, bind_eq_ok_iff, readText] at hr
  obtain ⟨s, hr, he⟩ := hr
  cases he
  split at hr
  · cases hr
    exact ⟨s, ‹_›, hs hd⟩
  · cases hr

end Dump

namespace FileTree

/-- The trees hold the same texts in the same files at the same places. -/
structure SameTexts (tree other : FileTree) : Prop where
  entries : other.entries = tree.entries
  root : other.root = tree.root
  start : other.start = tree.start
  rights : ∀ number, (other.file number).rights = (tree.file number).rights
  text : ∀ number,
    Contents.text (.ok (other.file number).bytes) = Contents.text (.ok (tree.file number).bytes)

variable {tree other : FileTree}

namespace SameTexts

variable (h : tree.SameTexts other)
include h

theorem sameNodes : SameNodes tree other :=
  ⟨h.start, fun place => by rw [node?, node?, h.entries, h.root]⟩

/-- At each place the texts are the same. -/
theorem contentsAt_eq (place : List String) :
    (other.contentsAt place).map Contents.text = (tree.contentsAt place).map Contents.text := by
  rw [contentsAt, contentsAt, h.sameNodes.node?]
  cases tree.node? place with
  | none => rfl
  | some node =>
    cases node with
    | file number =>
      simp only [Option.map_some, h.rights]
      split
      · rw [h.text]
      · rfl
    | folder => rfl
    | link => rfl

theorem contents?_eq (path : String) :
    (other.contents? path).map Contents.text = (tree.contents? path).map Contents.text := by
  rw [contents?, contents?, h.sameNodes.resolve_eq]
  cases tree.resolve path with
  | ok place => exact h.contentsAt_eq place
  | error fault => rfl

theorem read_eq (path : String) :
    Contents.text (other.read path) = Contents.text (tree.read path) := by
  rw [read, read, h.sameNodes.resolve_eq]
  cases tree.resolve path with
  | ok place =>
    dsimp only
    rw [← Option.getD_map Contents.text, h.contentsAt_eq place, Option.getD_map]
  | error fault => rfl

theorem list_eq (path : String) : other.list path = tree.list path := by
  simp only [list, h.sameNodes.resolve_eq, h.sameNodes.folder_eq, names, h.entries]

/-- The same files with the same texts have definitions. -/
theorem definitionEntries_eq (path : String) (kind : Routine.Kind) :
    (other.definitionEntries path kind).map namedTexts =
      (tree.definitionEntries path kind).map namedTexts := by
  have hl : other.listed = tree.listed := by
    funext folder
    rw [listed, listed, h.list_eq]
  have hr (folder : String) (names : List String) :
      namedTexts (other.readAll folder names) = namedTexts (tree.readAll folder names) := by
    simp [namedTexts, readAll, Prod.map, Function.comp_def, h.read_eq]
  have hd (folder : String) : other.Defines path kind folder ↔ tree.Defines path kind folder := by
    have hi := h.sameNodes.isFolder_eq (Path.join path kind.folderName)
    exact ⟨fun hd => ⟨hd.folderPath, hi ▸ hd.isFolder⟩, fun hd => ⟨hd.folderPath, hi ▸ hd.isFolder⟩⟩
  by_cases hk : ∃ folder, tree.Defines path kind folder
  · obtain ⟨folder, hk⟩ := hk
    rw [hk.definitionEntries_eq, ((hd folder).mpr hk).definitionEntries_eq, hl]
    simp only [bind, Except.bind, pure, Except.pure]
    split
    · rfl
    · split
      · rfl
      · exact congrArg Except.ok (hr folder _)
  · rw [definitionEntries_of_not_defines fun folder ho => hk ⟨folder, ho⟩,
      definitionEntries_of_not_defines fun folder ho => hk ⟨folder, (hd folder).mp ho⟩]

theorem dumpFolder (path : String) : (tree.dumpFolder path).SameTexts (other.dumpFolder path) where
  listings := by
    have hl (tree : FileTree) : namedTexts (tree.dumpFolder path).listings =
        Listing.all.filterMap fun listing =>
          let file := Path.join path listing.file
          if listing = .columns || ((tree.contents? file).map Contents.text).isSome then
            some (listing, Contents.text (tree.read file)) else none := by
      rw [listings_dumpFolder, namedTexts, List.map_filterMap]
      refine List.filterMap_congr fun listing _ => ?_
      simp only [listingAt?, Option.isSome_map]
      split <;> rfl
    simp only [hl, h.contents?_eq, h.read_eq]
  definitions kind := by
    rw [definitions_dumpFolder, definitions_dumpFolder]
    exact (h.definitionEntries_eq path kind).symm

end SameTexts
end FileTree
end CatalogDdl
