import CatalogDdl.Dump.Basic
import CatalogDdl.Proofs.Catalog.Printed
import CatalogDdl.Proofs.Dump.Texts
import CatalogDdl.Proofs.Script.Created
import CatalogDdl.Proofs.Text.Encoding

/-!
# The dump of a catalog

A catalog is printed as six listings. What is read of them is the catalog itself, so every catalog
of records that can be printed has a dump, and there is a tree in which that dump is found.
-/
namespace CatalogDdl
open Text ResultSet

/-- A value by which the entry is printed. -/
def Entry.shown : Entry → String
  | text value => value
  | optional value? => value?.getD ""
  | number n => toString n
  | truth b => if b then "1" else "0"
  | action a => a.name

theorem Entry.shows_shown (entry : Entry) : entry.Shows entry.shown := by
  cases entry with
  | text value => exact .text value
  | optional value? =>
    cases value? with
    | none => exact .empty
    | some value => exact .present value
  | number n => exact .number n
  | truth b =>
    cases b with
    | false => exact .no
    | true => exact .yes
  | action a => exact .action a

namespace Catalog

def records (c : Catalog) : (listing : Listing) → List listing.Record
  | .columns => c.columns
  | .primaryKeys => c.primaryKeys
  | .foreignKeys => c.foreignKeys
  | .indexes => c.indexes
  | .procedures => c.procedures
  | .views => c.views

def printed (c : Catalog) (listing : Listing) : String :=
  listing.printed ['-'] ((c.records listing).map fun record =>
    (listing.entries record).map Entry.shown) (c.records listing).length []

/-- The dump of the catalog and of definitions that were fetched by themselves. -/
def dump (c : Catalog) (definitions : List Routine) : Dump where
  columns := c.printed .columns
  primaryKeys := c.printed .primaryKeys
  foreignKeys := c.printed .foreignKeys
  indexes := c.printed .indexes
  procedures := c.printed .procedures
  views := c.printed .views
  definitions := definitions

theorem listing_dump (c : Catalog) (definitions : List Routine) (listing : Listing) :
    (c.dump definitions).listing listing = c.printed listing := by
  cases listing <;> rfl

def Printable (c : Catalog) : Prop :=
  ∀ listing ∈ Listing.all, ∀ record ∈ c.records listing, listing.Printable record

instance : (listing : Listing) → (record : listing.Record) → Decidable (listing.Holds record)
  | .columns, _ | .primaryKeys, _ | .foreignKeys, _ | .indexes, _ =>
    inferInstanceAs (Decidable True)
  | .procedures, routine => inferInstanceAs (Decidable (Routine.kind routine = .procedure))
  | .views, routine => inferInstanceAs (Decidable (Routine.kind routine = .view))

instance (listing : Listing) (record : listing.Record) : Decidable (listing.Printable record) :=
  decidable_of_iff (listing.Holds record ∧ ∀ entry ∈ listing.entries record, entry.Printable)
    ⟨fun h => ⟨h.1, h.2⟩, fun h => ⟨h.1, h.2⟩⟩

instance (c : Catalog) : Decidable c.Printable :=
  inferInstanceAs (Decidable (∀ listing ∈ Listing.all, ∀ record ∈ c.records listing,
    listing.Printable record))

variable {c : Catalog}

/-- The rows of a printed listing are decoded to its records. -/
theorem ofRows_printed_records (h : c.Printable) (listing : Listing) :
    listing.ofRows (parse '|' (c.printed listing)).rows = .ok (c.records listing) := by
  have hp := h listing listing.mem_all
  have hs : List.Forall₂ listing.Shows (c.records listing)
      ((c.records listing).map fun record => (listing.entries record).map Entry.shown) := by
    refine List.forall₂_map_right_iff.mpr (List.forall₂_same.mpr fun record _ => ?_)
    exact List.forall₂_map_right_iff.mpr (List.forall₂_same.mpr fun entry _ => entry.shows_shown)
  rw [printed, Listing.parse_printed_rows (Listing.plain_rows hp hs) (by decide) (by decide)]
  exact Listing.ofRows_of_shows hp hs

/-- The dump of a catalog is read as the catalog, with the definitions in their places. -/
theorem catalog_dump (h : c.Printable) (definitions : List Routine) :
    (c.dump definitions).catalog '|' = .ok (c.redefine definitions) := by
  have hr (listing : Listing) : listing.ofRows ((c.dump definitions).rows '|' listing) =
      .ok (c.records listing) := by
    rw [Dump.rows, listing_dump]
    exact ofRows_printed_records h listing
  have hl : (c.dump definitions).listedCatalog '|' = .ok c := by
    rw [Dump.listedCatalog, show Column.ofRows _ = _ from hr .columns,
      show PrimaryKeyPart.ofRows _ = _ from hr .primaryKeys,
      show ForeignKeyPart.ofRows _ = _ from hr .foreignKeys,
      show IndexPart.ofRows _ = _ from hr .indexes,
      show Routine.ofRows .procedure _ = _ from hr .procedures,
      show Routine.ofRows .view _ = _ from hr .views]
    rfl
  rw [Dump.catalog, hl]
  rfl

theorem schema_dump (h : c.Printable) (definitions : List Routine) :
    (c.dump definitions).schema '|' = (c.redefine definitions).schema.mapError .defect := by
  rw [Dump.schema, catalog_dump h]
  rfl

/-- The dump of the stocked catalog has a script under all settings. -/
theorem script_stocked : ∃ tables, ∀ settings : Settings, settings.delimiter = '|' →
    (stocked.dump []).script settings = .ok ⟨settings, stockedSchema, tables, []⟩ := by
  obtain ⟨tables, ht⟩ := Script.exists_script_stocked
  refine ⟨tables, fun settings hd => ?_⟩
  have hs : (stocked.dump []).schema '|' = .ok stockedSchema := by
    rw [schema_dump (by decide +kernel)]
    exact congrArg (Except.mapError Error.defect) schema_stocked
  rw [Dump.script, hd, hs]
  exact congrArg (Except.mapError Error.defect) (ht settings)

/-- A listing begins with the name of its first field. -/
theorem unmarked_printed (c : Catalog) (listing : Listing) : Unmarked (c.printed listing) := by
  have hf : ∃ first rest, joined '|' listing.fields = first :: rest ∧ first ≠ orderMark := by
    cases listing <;> exact ⟨_, _, rfl, by decide⟩
  obtain ⟨first, rest, hf, hm⟩ := hf
  simpa [Unmarked, printed, Listing.printed, unlines, hf] using hm

end Catalog

/-- Where the paths of the listings lead to the texts of a dump, and no folder has definitions, the
dump is read. -/
theorem Dump.ofFolder_of_contents {tree : FileTree} {path : String} {dump : Dump}
    (hl : ∀ listing, tree.contents? (Path.join path listing.file) =
      some (.ok (dump.listing listing).toUTF8))
    (hu : ∀ listing, Unmarked (dump.listing listing)) (hn : dump.definitions = [])
    (hd : ∀ kind, tree.definitionEntries path kind = .ok []) :
    ofFolder path (tree.dumpFolder path) = .ok dump := by
  have hr (listing : Listing) :
      readListing path (tree.dumpFolder path) listing = .ok (dump.listing listing) := by
    rw [readListing, tree.listing?_dumpFolder, FileTree.listingAt?_of_contents? (hl listing)]
    exact readText_of_decode (decode_encode (hu listing) .plain) _
  have he (kind : Routine.Kind) : readDefinitions path (tree.dumpFolder path) kind = .ok [] := by
    rw [readDefinitions_eq_elim, tree.definitions_dumpFolder, hd]
    cases kind.folderPath? path <;> simp [bind, Except.bind, pure, Except.pure]
  rw [ofFolder, hr, hr, hr, hr, hr, hr, he, he]
  cases dump
  subst hn
  rfl

/-- The folder at hand has a link to the dump, which is in another folder. -/
def FileTree.shop (dump : Dump) (rights : Listing → Rights) : FileTree where
  entries := [(["home"], .folder {}), (["home", "d"], .link "../srv/dump"), (["srv"], .folder {}),
      (["srv", "dump"], .folder {})] ++
    Listing.all.zipIdx.map fun (listing, number) => (["srv", "dump", listing.file], .file number)
  file number := match Listing.all[number]? with
    | some listing => { bytes := (dump.listing listing).toUTF8, rights := rights listing }
    | none => {}
  start := ["home"]

namespace FileTree

/-- Neither the texts nor the rights to the files say where paths lead. -/
theorem sameWays_shop (dump : Dump) (rights : Listing → Rights) :
    SameWays (shop {} fun _ => {}) (shop dump rights) := ⟨rfl, fun _ => rfl⟩

theorem resolve_shop (dump : Dump) (rights : Listing → Rights) (listing : Listing) :
    (shop dump rights).resolve (Path.join "d" listing.file) =
      .ok ["srv", "dump", listing.file] := by
  rw [(sameWays_shop dump rights).resolve_eq_ok_iff]
  have hl : ∀ listing ∈ Listing.all, (shop {} fun _ => {}).resolve (Path.join "d" listing.file) =
      .ok ["srv", "dump", listing.file] := by decide +kernel
  exact hl listing listing.mem_all

theorem node?_shop (dump : Dump) (rights : Listing → Rights) (listing : Listing) :
    (shop dump rights).node? ["srv", "dump", listing.file] =
      some (.file (Listing.all.idxOf listing)) := by
  have hl : ∀ listing ∈ Listing.all, (shop {} fun _ => {}).node? ["srv", "dump", listing.file] =
      some (.file (Listing.all.idxOf listing)) := by decide +kernel
  exact hl listing listing.mem_all

theorem contents?_shop (dump : Dump) (rights : Listing → Rights) (listing : Listing) :
    (shop dump rights).contents? (Path.join "d" listing.file) = some (if (rights listing).read
      then .ok (dump.listing listing).toUTF8 else .error (.path .denied)) := by
  refine contents?_eq_some_iff.mpr ⟨_, resolve_shop dump rights listing, ?_⟩
  rw [contentsAt, node?_shop]
  cases listing <;> rfl

theorem not_defines_shop (dump : Dump) (rights : Listing → Rights) (kind : Routine.Kind)
    (folder : String) : ¬ (shop dump rights).Defines "d" kind folder := by
  intro hd
  have hf := hd.isFolder
  rw [(sameWays_shop dump rights).isFolder_eq] at hf
  revert hf
  cases kind <;> decide +kernel

def shopOf (c : Catalog) : FileTree := shop (c.dump []) fun _ => {}

theorem ofFolder_shopOf (c : Catalog) :
    Dump.ofFolder "d" ((shopOf c).dumpFolder "d") = .ok (c.dump []) := by
  refine Dump.ofFolder_of_contents (fun listing => ?_) (fun listing => ?_) rfl
    (fun kind => definitionEntries_of_not_defines (not_defines_shop _ _ kind))
  · rw [shopOf, contents?_shop, if_pos rfl]
  · rw [Catalog.listing_dump]
    exact c.unmarked_printed listing

/-- A listing is read in the tree unless its file may not be. -/
theorem readListing_shop (c : Catalog) (rights : Listing → Rights) (listing : Listing) :
    Dump.readListing "d" ((shop (c.dump []) rights).dumpFolder "d") listing =
      if (rights listing).read then .ok (c.printed listing)
      else .error (.unreadable (Path.join "d" listing.file) (.path .denied)) := by
  have hd := Text.decode_encode (c.unmarked_printed listing) .plain
  rw [Dump.readListing, listing?_dumpFolder, listingAt?_of_contents? (contents?_shop _ _ listing)]
  cases (rights listing).read with
  | true =>
    rw [Catalog.listing_dump]
    exact Dump.readText_of_decode hd _
  | false => rfl

end FileTree
end CatalogDdl
