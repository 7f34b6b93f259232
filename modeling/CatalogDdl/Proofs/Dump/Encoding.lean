import CatalogDdl.Proofs.Dump.Texts
import CatalogDdl.Proofs.Text.Encoding

/-!
# Dumps in other encodings

A dump does not change with the encodings that the texts of its files are in. Only a file that
begins with a byte order mark can be malformed.
-/
namespace CatalogDdl
open Text

/-- The path leads to a file. If the file begins with a byte order mark, it is a text in its
encoding. -/
def Contents.Readable (contents : Contents) : Prop :=
  ∃ bytes, contents = .ok bytes ∧ (Marked bytes → ∃ s e, Unmarked s ∧ bytes = Encoding.encode e s)

theorem Contents.Readable.exists_text {contents : Contents} (h : Contents.Readable contents) :
    ∃ s, Contents.text contents = .ok s := by
  obtain ⟨bytes, rfl, hm⟩ := h
  cases hd : decode bytes with
  | some s => exact ⟨s, Contents.text_ok hd⟩
  | none =>
    obtain ⟨s, e, hs, rfl⟩ := hm (marked_of_decode_eq_none hd)
    rw [decode_encode hs] at hd
    cases hd

/-- The file stays as it is, or the text in it is encoded anew. -/
inductive File.Recoded : File → File → Prop where
  | same (file : File) : Recoded file file
  | text {s : String} (h : Unmarked s) (e f : Encoding) (rights : Rights) :
      Recoded ⟨e.encode s, rights⟩ ⟨f.encode s, rights⟩

theorem File.Recoded.rights_eq {file new : File} (h : file.Recoded new) :
    new.rights = file.rights := by
  cases h <;> rfl

theorem File.Recoded.text_eq {file new : File} (h : file.Recoded new) :
    Contents.text (.ok new.bytes) = Contents.text (.ok file.bytes) := by
  cases h with
  | same => rfl
  | text h e f rights =>
    have hd (e : Encoding) := Contents.text_ok (decode_encode h e)
    exact (hd f).trans (hd e).symm

namespace FileTree

/-- The second tree is the first one with texts in other encodings, however many they are. -/
structure Recoded (tree other : FileTree) : Prop where
  entries : other.entries = tree.entries
  root : other.root = tree.root
  start : other.start = tree.start
  file : ∀ number, (tree.file number).Recoded (other.file number)

variable {tree other : FileTree} {path : String}

theorem Recoded.sameTexts (h : tree.Recoded other) : tree.SameTexts other where
  entries := h.entries
  root := h.root
  start := h.start
  rights number := (h.file number).rights_eq
  text number := (h.file number).text_eq

/-- If the error is that a file is malformed, the file begins with a byte order mark. -/
def BlamesMark (tree : FileTree) (error : Error) : Prop :=
  ∀ file, error = .unreadable file .malformed →
    ∃ bytes, tree.contents? file = some (.ok bytes) ∧ Marked bytes

/-- A tree gives bytes, and only as a text can they be malformed. -/
theorem contentsAt_ne_malformed (tree : FileTree) (place : List String) :
    tree.contentsAt place ≠ some (.error .malformed) := by
  intro h
  obtain ⟨node, -, hc⟩ := Option.map_eq_some_iff.mp h
  cases node with
  | file number =>
    dsimp only at hc
    split at hc <;> cases hc
  | folder rights =>
    dsimp only at hc
    split at hc <;> cases hc
  | link target => cases hc

theorem read_ne_malformed (tree : FileTree) (path : String) :
    tree.read path ≠ .error .malformed := by
  unfold read
  cases tree.resolve path with
  | error fault => simp
  | ok place =>
    cases hc : tree.contentsAt place with
    | none => simp [hc]
    | some contents =>
      simp only [hc, Option.getD_some]
      rintro rfl
      exact tree.contentsAt_ne_malformed place hc

/-- Only bytes behind a mark have no text. -/
theorem failsBy_readText (tree : FileTree) (path : String) :
    FailsBy tree.BlamesMark (Dump.readText path (tree.read path)) := by
  rintro error he file rfl
  cases hr : tree.read path with
  | error fault =>
    rw [hr] at he
    cases he
    exact absurd hr (tree.read_ne_malformed path)
  | ok bytes =>
    simp only [hr, Dump.readText] at he
    split at he
    · cases he
    · cases he
      exact ⟨bytes, read_eq_ok_iff.mp hr, marked_of_decode_eq_none ‹_›⟩

theorem failsBy_readListing (tree : FileTree) (path : String) (listing : Listing) :
    FailsBy tree.BlamesMark (Dump.readListing path (tree.dumpFolder path) listing) := by
  have ht := tree.failsBy_readText (Path.join path listing.file)
  rw [Dump.readListing, listing?_dumpFolder, listingAt?]
  split
  · rename_i contents hc
    split at hc
    · cases hc
      exact ht
    · cases hc
  · split
    · rintro error he file rfl
      cases he
    · exact .ok _ _

theorem failsBy_listed (tree : FileTree) (path : String) :
    FailsBy tree.BlamesMark (tree.listed path) := by
  rintro error he file rfl
  obtain ⟨fault, -, hf⟩ := mapError_eq_error_iff.mp he
  cases hf

theorem failsBy_readDefinitions (tree : FileTree) (path : String) (kind : Routine.Kind) :
    FailsBy tree.BlamesMark (Dump.readDefinitions path (tree.dumpFolder path) kind) := by
  rw [Dump.readDefinitions_eq_elim, definitions_dumpFolder]
  cases hp : kind.folderPath? path with
  | none => exact .ok _ _
  | some folder =>
    intro error he
    rcases bind_eq_error_iff.mp he with he | ⟨files, hf, he⟩
    · rcases defines_or hp with hd | hn
      · have hs : FailsBy tree.BlamesMark ((Path.searched folder).mapM tree.listed) := by
          intro error he
          obtain ⟨above, -, ha⟩ := (mapM_eq_error_iff.mp he).exists_item
          exact tree.failsBy_listed above error ha
        rw [hd.definitionEntries_eq] at he
        refine FailsBy.bind ?_ (fun _ => ?_) error he
        · exact hs.bind fun _ => .ok _ _
        · exact (tree.failsBy_listed folder).bind fun _ => .ok _ _
      · rw [hn] at he
        cases he
    · obtain ⟨file, hm, hr⟩ := (mapM_eq_error_iff.mp he).exists_item
      obtain ⟨name, rfl⟩ := exists_read_of_mem hp hf (List.mem_mergeSort.mp hm)
      exact (tree.failsBy_readText (folder ++ "/" ++ name)).bind (fun _ => .ok _ _) error hr

theorem failsBy_ofFolder (tree : FileTree) (path : String) :
    FailsBy tree.BlamesMark (Dump.ofFolder path (tree.dumpFolder path)) := by
  have hl := tree.failsBy_readListing path
  have hd := tree.failsBy_readDefinitions path
  exact (hl _).bind fun _ => (hl _).bind fun _ => (hl _).bind fun _ => (hl _).bind fun _ =>
    (hl _).bind fun _ => (hl _).bind fun _ => (hd _).bind fun _ => (hd _).bind fun _ => .ok _ _

end FileTree

/-- A text without a byte order mark is read from a file in any of the four encodings, and other
bytes that are not UTF-8 one character each. So a folder of readable files has a dump, with the
texts of its files, and encoding them anew does not change it. Where a file is malformed it begins
with a byte order mark. -/
theorem Dump.read_in_any_encoding :
    (∀ (file s : String) (e : Encoding), Unmarked s → readText file (.ok (e.encode s)) = .ok s) ∧
    (∀ bytes : ByteArray, String.fromUTF8? bytes = none → ¬ Marked bytes →
      ∃ s, (∀ file, readText file (.ok bytes) = .ok s) ∧ s.length = bytes.size ∧
        ∀ (i : Nat) (hi : i < bytes.size), bytes[i] < 0x80 →
        s.toList[i]? = some (Char.ofNat bytes[i].toNat)) ∧
    ∀ (tree : FileTree) (path : String),
      ((tree.dumpFolder path).CompleteWith Contents.Readable →
        ∃ dump, ofFolder path (tree.dumpFolder path) = .ok dump) ∧
      (∀ dump, ofFolder path (tree.dumpFolder path) = .ok dump →
        (∀ listing bytes, tree.contents? (Path.join path listing.file) = some (.ok bytes) →
          ∀ file, readText file (.ok bytes) = .ok (dump.listing listing)) ∧
        ∀ kind, ∃ files, tree.definitionEntries path kind = .ok files ∧
          ∀ name bytes, (name, .ok bytes) ∈ files →
            ∃ s, (∀ file, readText file (.ok bytes) = .ok s) ∧
              ⟨kind, routineName name, ResultSet.body s⟩ ∈ dump.definitions) ∧
      (∀ other, tree.Recoded other →
        ofFolder path (tree.dumpFolder path) = ofFolder path (other.dumpFolder path)) ∧
      ∀ file, ofFolder path (tree.dumpFolder path) = .error (.unreadable file .malformed) →
        ∃ bytes, tree.contents? file = some (.ok bytes) ∧ Marked bytes := by
  refine ⟨fun file s e hs => readText_of_decode (decode_encode hs e) file, fun bytes hu hm => ?_,
    fun tree path =>
    ⟨fun hr => ?_, fun dump hd => ⟨fun listing bytes hc => ?_, fun kind => ?_⟩, fun other ho => ?_,
      fun file he => ?_⟩⟩
  · obtain ⟨s, hs, hl, hc⟩ := exists_decode_of_unmarked hu hm
    exact ⟨s, readText_of_decode hs, hl, hc⟩
  · exact exists_of_texts (hr.mono fun contents => Contents.Readable.exists_text) path
  · have hf := FileTree.listingAt?_of_contents? hc
    rw [← tree.listing?_dumpFolder] at hf
    exact readText_of_decode (decode_listing hd hf)
  · cases hp : kind.folderPath? path with
    | none =>
      refine ⟨[], FileTree.definitionEntries_of_not_defines fun folder ho => ?_, nofun⟩
      have hn := ho.folderPath
      rw [hp] at hn
      cases hn
    | some folder =>
      obtain ⟨files, hf, hs⟩ := exists_definitions hd hp
      refine ⟨files, (tree.definitions_dumpFolder path kind).symm.trans hf, fun name bytes hm => ?_⟩
      obtain ⟨s, hs, hm⟩ := hs name bytes hm
      exact ⟨s, readText_of_decode hs, hm⟩
  · exact ofFolder_congr (ho.sameTexts.dumpFolder path) path
  · exact tree.failsBy_ofFolder path _ he file rfl

def viewTree (columns view : ByteArray) : FileTree where
  entries := [(["columns.txt"], .file 0), (["views"], .folder {}), (["views", "v.sql"], .file 1)]
  file number := { bytes := if number = 0 then columns else view }

theorem recoded_viewTree {s t : String} (hs : Unmarked s) (ht : Unmarked t) (e f g h : Encoding) :
    (viewTree (e.encode s) (f.encode t)).Recoded (viewTree (g.encode s) (h.encode t)) := by
  refine ⟨rfl, rfl, rfl, fun number => ?_⟩
  unfold viewTree
  dsimp only
  split
  · exact .text hs e g {}
  · exact .text ht f h {}

/-- The sample text as the listing, and the definition of a view in UTF-8 behind a mark. -/
def markedTree : FileTree :=
  viewTree ((Encoding.sixteen .low).encode "\x00😀") (Encoding.marked.encode "SELECT 1")

theorem listings_markedTree : (markedTree.dumpFolder ".").listings =
    [(.columns, .ok ((Encoding.sixteen .low).encode "\x00😀"))] := by decide +kernel

theorem views_markedTree : markedTree.definitionEntries "." .view =
    .ok [("v.sql", .ok (Encoding.marked.encode "SELECT 1"))] := by decide +kernel

theorem readable_markedTree : (markedTree.dumpFolder ".").CompleteWith Contents.Readable := by
  have hs : Unmarked "\x00😀" := by decide
  have ht : Unmarked "SELECT 1" := by decide
  refine ⟨?_, fun listing contents h => ?_, fun kind => ?_⟩
  · rw [Folder.listing?, listings_markedTree]
    decide
  · rw [Folder.listing?, listings_markedTree] at h
    cases listing <;> cases h
    exact ⟨_, rfl, fun _ => ⟨_, .sixteen .low, hs, rfl⟩⟩
  · cases kind with
    | procedure => exact ⟨[], by decide +kernel, by simp⟩
    | view =>
      refine ⟨_, views_markedTree, fun file h => ?_⟩
      obtain rfl := List.mem_singleton.mp h
      exact ⟨_, rfl, fun _ => ⟨_, .marked, ht, rfl⟩⟩

/-- A character of number zero and a surrogate pair are read from UTF-16 as from UTF-8. Three bytes
of Windows-1252 are three characters, and behind the mark of UTF-16 one byte is malformed. -/
theorem Dump.read_in_any_encoding_sample :
    Unmarked "\x00😀" ∧ Unmarked "SELECT 1" ∧
    ((Encoding.sixteen .low).encode "\x00😀").data =
      #[0xff, 0xfe, 0x00, 0x00, 0x3d, 0xd8, 0x00, 0xde] ∧
    readText "columns.txt" (.ok ((Encoding.sixteen .low).encode "\x00😀")) = .ok "\x00😀" ∧
    (∃ dump, ofFolder "." (markedTree.dumpFolder ".") = .ok dump ∧
      ofFolder "." ((viewTree (Encoding.plain.encode "\x00😀")
        ((Encoding.sixteen .high).encode "SELECT 1")).dumpFolder ".") = .ok dump ∧
      dump.columns = "\x00😀" ∧ ⟨.view, "v", "SELECT 1"⟩ ∈ dump.definitions) ∧
    (∃ s, readText "columns.txt" (.ok ⟨#[0x41, 0xf1, 0x6f]⟩) = .ok s ∧ s.length = 3 ∧
      s.toList[2]? = some 'o') ∧
    ofFolder "." ((viewTree ⟨#[0xff, 0xfe, 0x41]⟩ ⟨#[]⟩).dumpFolder ".") =
      .error (.unreadable "./columns.txt" .malformed) ∧
    ∃ bytes, (viewTree ⟨#[0xff, 0xfe, 0x41]⟩ ⟨#[]⟩).contents? "./columns.txt" = some (.ok bytes) ∧
    Marked bytes := by
  obtain ⟨hr, hf, hl⟩ := read_in_any_encoding
  have hs : Unmarked "\x00😀" := by decide
  have ht : Unmarked "SELECT 1" := by decide
  have he : ofFolder "." ((viewTree ⟨#[0xff, 0xfe, 0x41]⟩ ⟨#[]⟩).dumpFolder ".") =
      .error (.unreadable "./columns.txt" .malformed) := by decide +kernel
  refine ⟨hs, ht, rfl, hr _ _ _ hs, ?_, ?_, he, (hl _ ".").2.2.2 _ he⟩
  · obtain ⟨ho, hd, hc, -⟩ := hl markedTree "."
    obtain ⟨dump, hm⟩ := ho readable_markedTree
    obtain ⟨hl, hd⟩ := hd dump hm
    have hc' : markedTree.contents? "./columns.txt" =
        some (.ok ((Encoding.sixteen .low).encode "\x00😀")) := by decide +kernel
    have hcol := hl .columns _ hc' "columns.txt"
    rw [hr _ _ _ hs, Except.ok.injEq] at hcol
    obtain ⟨files, hv, hd⟩ := hd .view
    rw [views_markedTree, Except.ok.injEq] at hv
    subst hv
    obtain ⟨s, hv, hd⟩ := hd "v.sql" _ (List.mem_singleton.mpr rfl)
    have hv := hv "v.sql"
    rw [hr _ _ _ ht, Except.ok.injEq] at hv
    subst hv
    refine ⟨dump, hm, ?_, hcol.symm, hd⟩
    rw [← hc _ (recoded_viewTree hs ht ..), hm]
  · obtain ⟨s, hs, hn, hc⟩ := hf ⟨#[0x41, 0xf1, 0x6f]⟩ rfl (by decide)
    exact ⟨s, hs _, hn, hc 2 (by decide) (by decide)⟩

end CatalogDdl
