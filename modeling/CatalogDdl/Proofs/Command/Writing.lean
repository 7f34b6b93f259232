import CatalogDdl.Command.Run
import CatalogDdl.Proofs.Dump.Policy
import CatalogDdl.Proofs.Dump.Printed
import CatalogDdl.Proofs.Files.Same

/-!
# Commands that write a script

A command that writes a script makes the whole text of it before it writes anything. So a run either
fails, with one of the errors of the stages below, and leaves the files as they are, or it comes to
the writing of one file.
-/
namespace CatalogDdl.Command

/-- A command that writes a script without the time in it. -/
inductive Writing where
  | script (input : String) (output : Option String) (settings : Settings)
  | routines (kind : Routine.Kind) (input : String) (output : Option String)

namespace Writing

variable {folder : Folder} {writing : Writing} {error : Error}

def command : Writing → Command
  | script input output settings => .script input output settings false
  | routines kind input output => .routines kind input output

def input : Writing → String
  | script input .. | routines _ input _ => input

/-- The name of the file that is written in the folder that is read, unless a path is given. -/
def fileName : Writing → String
  | script .. => "schema.sql"
  | routines kind .. => routineFile kind

def output : Writing → Option String
  | script _ output _ | routines _ _ output => output

def target (writing : Writing) : String :=
  writing.output.getD (Path.join writing.input writing.fileName)

/-- The settings, without a time. Scripts of routines always have the usual ones. -/
def settings : Writing → Settings
  | script _ _ settings => { settings with madeAt := none }
  | routines .. => .usual

def text (folder : Folder) : Writing → Except Error String
  | script input _ settings => do
    let script ← scriptOf input folder { settings with madeAt := none }
    return script.text
  | routines kind input _ => do
    let schema ← schemaOf input folder
    return schema.routineScript kind .usual

/-- Holds of the commands that define every table and take no defect. -/
def DefinesTables : Writing → Prop
  | script _ _ settings => settings.onDefect = .refuse
  | routines .. => False

/-- The stages at which a text may fail to be made, each with its error: the files cannot be read,
the listings cannot be decoded, the catalog contradicts itself, or a table that has to be defined
has a defect. -/
inductive Fails (folder : Folder) (writing : Writing) : Error → Prop
  | load {error : Error} (hl : Dump.ofFolder writing.input folder = .error error) :
      Fails folder writing error
  | decode {dump : Dump} {error : Error} (hl : Dump.ofFolder writing.input folder = .ok dump)
      (hc : dump.catalog writing.settings.delimiter = .error error) : Fails folder writing error
  | build {dump : Dump} {catalog : Catalog} {defect : Defect}
      (hl : Dump.ofFolder writing.input folder = .ok dump)
      (hc : dump.catalog writing.settings.delimiter = .ok catalog)
      (hb : catalog.schema = .error defect) :
      Fails folder writing (.defect defect)
  | define {dump : Dump} {schema : Schema} {defect : Defect}
      (hl : Dump.ofFolder writing.input folder = .ok dump)
      (hs : dump.schema writing.settings.delimiter = .ok schema) (hd : writing.DefinesTables)
      (ht : FirstError Table.define schema.tables defect) : Fails folder writing (.defect defect)

/-- A text fails at the first stage that does. -/
theorem fails_iff : writing.Fails folder error ↔ Dump.ofFolder writing.input folder = .error error ∨
    ∃ dump, Dump.ofFolder writing.input folder = .ok dump ∧
      (dump.schema writing.settings.delimiter = .error error ∨
        ∃ schema, dump.schema writing.settings.delimiter = .ok schema ∧ writing.DefinesTables ∧
          ∃ defect, FirstError Table.define schema.tables defect ∧ error = .defect defect) := by
  constructor
  · rintro (hl | ⟨hl, hc⟩ | ⟨hl, hc, hb⟩ | ⟨hl, hs, hd, ht⟩)
    · exact .inl hl
    · exact .inr ⟨_, hl, .inl (Dump.schema_eq_error_iff.mpr (.inl hc))⟩
    · exact .inr ⟨_, hl, .inl (Dump.schema_eq_error_iff.mpr (.inr ⟨_, hc, _, hb, rfl⟩))⟩
    · exact .inr ⟨_, hl, .inr ⟨_, hs, hd, _, ht, rfl⟩⟩
  · rintro (hl | ⟨dump, hl, hs | ⟨schema, hs, hd, defect, ht, rfl⟩⟩)
    · exact .load hl
    · rcases Dump.schema_eq_error_iff.mp hs with hc | ⟨catalog, hc, defect, hb, rfl⟩
      · exact .decode hl hc
      · exact .build hl hc hb
    · exact .define hl hs hd ht

/-- No text is made if and only if a stage fails, and its error is that of the stage. -/
theorem text_eq_error_iff : writing.text folder = .error error ↔ writing.Fails folder error := by
  rw [fails_iff]
  cases writing with
  | script input output settings =>
    cases hp : settings.onDefect <;>
      simp [text, scriptOf, bind_eq_error_iff, pure, Except.pure, Writing.input, Writing.settings,
        DefinesTables, hp, Dump.script_skip_eq_error_iff, Dump.script_refuse_eq_error_iff]
  | routines kind input output =>
    simp [text, schemaOf, bind_eq_error_iff, pure, Except.pure, Writing.input, Writing.settings,
      DefinesTables]

/-- What is reported is the text, or the message of the error that keeps it from being made. The
time has no part in it. -/
theorem report_command (writing : Writing) (folder : Folder) :
    (∃ error, writing.text folder = .error error ∧
      ∀ now, writing.command.report folder now = .error error.message) ∨
    ∃ text printed, writing.text folder = .ok text ∧
      ∀ now, writing.command.report folder now =
        .ok { file := some (writing.target, text), printed } := by
  cases writing with
  | script input output settings =>
    simp only [text, command, report, target, Bool.false_eq_true, if_false]
    cases scriptOf input folder { settings with madeAt := none } with
    | error error => exact .inl ⟨error, rfl, fun _ => rfl⟩
    | ok script => exact .inr ⟨script.text, _, rfl, fun _ => rfl⟩
  | routines kind input output =>
    simp only [text, command, report, target]
    cases schemaOf input folder with
    | error error => exact .inl ⟨error, rfl, fun _ => rfl⟩
    | ok schema => exact .inr ⟨_, _, rfl, fun _ => rfl⟩

end Writing
end CatalogDdl.Command

namespace CatalogDdl.FileTree

/-- A file can be written to a folder beside the dump, and that folder is made. -/
theorem exists_write_shop (dump : Dump) (rights : Listing → Rights) (bytes : ByteArray) :
    ∃ written, (shop dump rights).write "/srv/out/all.sql" bytes = .ok written := by
  have hs := sameWays_shop dump rights
  have hl : (shop dump rights).Leads ⟨[], 40⟩ ["", "srv"] ⟨["srv"], 40⟩ ∧
      (shop dump rights).Leads ⟨["srv"], 40⟩ ["out"] ⟨["srv", "out"], 40⟩ := by
    simp only [hs.leads_iff, ← walk_eq_ok_iff]
    decide +kernel
  have hf : (shop dump rights).IsFolder ["srv"] := hs.isFolder_iff.mpr ⟨{}, by decide +kernel⟩
  have ht : (shop dump rights).takesNew ["srv"] = true := by
    rw [hs.takesNew_eq]
    decide +kernel
  have hm : (shop dump rights).makeAbove "/srv/out/all.sql" =
      .ok ((shop dump rights).put ["srv", "out"] (.folder {})) := by
    have ha : Path.above "/srv/out/all.sql" = ["", "srv"] ++ ["out"] := by decide +kernel
    rw [makeAbove, if_pos (by decide +kernel), ha]
    exact (makeFolders_append hl.1 hf _).trans (makeFolders_new hl.2 rfl rfl ht [])
  have hp : SameWays ((shop {} fun _ => {}).put ["srv", "out"] (.folder {}))
      ((shop dump rights).put ["srv", "out"] (.folder {})) := ⟨rfl, fun _ => rfl⟩
  have ht : ((shop dump rights).put ["srv", "out"] (.folder {})).Takes
      ["srv", "out", "all.sql"] := by
    change FileTree.takesNew _ ["srv", "out"] = true
    rw [hp.takesNew_eq]
    decide +kernel
  refine exists_write hm ?_ ht bytes
  rw [hp.resolve_eq_ok_iff]
  decide +kernel

end CatalogDdl.FileTree

namespace CatalogDdl.Outcome
open Command FileTree

variable {writing : Writing}

theorem ofCommand_writing (tree : FileTree) (now : Option Timestamp) (writing : Writing) :
    ofCommand tree now writing.command =
      match writing.command.report (tree.dumpFolder writing.input) now with
      | .ok report => ofReport tree report
      | .error message => failed tree message := by
  cases writing <;> rfl

/-- Where a stage fails, the run ends with the first line of its error, prints nothing and leaves
every file as it was. Where none fails there is a text, and once it is written the run ends well:
the file that the path to write to leads to holds the text, every other file has the bytes it had,
and at every other place stands what stood there, or a folder where nothing did. -/
theorem failed_run_writes_nothing (tree : FileTree) (now : Option Timestamp)
    {arguments : List String} (ha : Command.ofArguments arguments = .ok writing.command) :
    (∀ error, writing.Fails (tree.dumpFolder writing.input) error →
      ofArguments tree now arguments =
        { code := 1, printed := "", failure := some (firstLine error.message), tree }) ∧
    ((∀ error, ¬ writing.Fails (tree.dumpFolder writing.input) error) →
      ∃ text, writing.text (tree.dumpFolder writing.input) = .ok text ∧
        ∀ written, tree.write writing.target text.toUTF8 = .ok written →
          (∃ printed, ofArguments tree now arguments =
            { code := 0, printed, failure := none, tree := written }) ∧
          ∃ place number, tree.Wrote writing.target text.toUTF8 place number written) := by
  have hc : ofArguments tree now arguments = ofCommand tree now writing.command := by
    simp only [ofArguments, ha]
  rw [hc, ofCommand_writing]
  rcases writing.report_command (tree.dumpFolder writing.input) with
    ⟨error, he, hr⟩ | ⟨text, printed, ht, hr⟩
  · refine ⟨fun other hf => ?_, fun hn => absurd (Writing.text_eq_error_iff.mp he) (hn error)⟩
    rw [Writing.text_eq_error_iff.mpr hf, Except.error.injEq] at he
    rw [hr, he]
    rfl
  · refine ⟨fun error hf => ?_, fun _ => ⟨text, ht, fun written hw => ⟨⟨printed, ?_⟩, ?_⟩⟩⟩
    · rw [Writing.text_eq_error_iff.mpr hf] at ht
      cases ht
    · simp only [hr, ofReport, hw]
    · exact exists_wrote hw

/-- The run makes a script of the dump in `d` and writes it to a folder that is not there yet. -/
def scriptAll (tree : FileTree) : Outcome :=
  ofArguments tree none ["script", "-i", "d", "-o", "/srv/out/all.sql", "--no-timestamp"]

/-- The dump of the catalog, of which the views may not be read. -/
def veiled : FileTree :=
  .shop (Catalog.stocked.dump []) fun listing => { read := !decide (listing = .views) }

/-- A length has more than 32 bits. -/
def tooGreat : Catalog :=
  { Catalog.stocked with columns := [{ Catalog.sampleColumn "User" with maxLength := 2147483648 }] }

/-- A foreign key refers to no table of the catalog. -/
def dangling : Catalog :=
  { Catalog.stocked with foreignKeys := [Catalog.sampleReference "FK_Order" "Order" "Buyer"] }

/-- The last table has two primary keys. -/
def twiceKeyed : Catalog :=
  { Catalog.stocked with primaryKeys :=
      ⟨"Order", "AK_Order", "By", 1⟩ :: Catalog.stocked.primaryKeys }

theorem load_veiled : Dump.ofFolder "d" (veiled.dumpFolder "d") =
    .error (.unreadable "d/views.txt" (.path .denied)) := by
  simp only [Dump.ofFolder, veiled, readListing_shop]
  rfl

/-- The length is refused in its row. -/
theorem decode_tooGreat : (tooGreat.dump []).catalog '|' =
    .error (.invalidValue "columns" "MaxLength" "2147483648" 1) := by
  have hs : (tooGreat.records .columns).map (fun column =>
        (Listing.columns.entries column).map Entry.shown) =
      [["User", "Id", "int", "2147483648", "10", "0", "0", "0", "", "", "",
        "1"]] := by decide +kernel
  have hv : ∀ values ∈ [["User", "Id", "int", "2147483648", "10", "0", "0", "0", "", "", "", "1"]],
      values.length = Listing.columns.fields.length ∧
      ∀ value ∈ values, ResultSet.Plain '|' value := by
    decide
  have ho : Column.ofRows ((tooGreat.dump []).rows '|' .columns) =
      .error (.invalidValue "columns" "MaxLength" "2147483648" 1) := by
    rw [Dump.rows, Catalog.listing_dump, Catalog.printed, hs,
      Listing.parse_printed_rows hv (by decide) (by decide)]
    decide +kernel
  rw [Dump.catalog, Dump.listedCatalog, ho]
  rfl

theorem define_twiceKeyed : ∃ schema, (twiceKeyed.dump []).schema '|' = .ok schema ∧
    FirstError Table.define schema.tables (.secondPrimaryKey "Order" "AK_Order" "PK_Order") := by
  have hd : twiceKeyed.defect? = none := by cbv
  obtain ⟨tables, rfl, hm⟩ : ∃ tables, twiceKeyed.tables = tables ∧
      tables.mapM Table.define = .error (.secondPrimaryKey "Order" "AK_Order" "PK_Order") :=
    ⟨_, by cbv, by decide +kernel⟩
  obtain ⟨schema, hs, ht⟩ : ∃ schema, twiceKeyed.schema = .ok schema ∧
      schema.tables = twiceKeyed.tables := by
    simp [Catalog.schema, hd]
  have hp : twiceKeyed.Printable := by decide +kernel
  refine ⟨schema, ?_, ht ▸ mapM_eq_error_iff.mp hm⟩
  rw [Catalog.schema_dump hp]
  change twiceKeyed.schema.mapError _ = _
  rw [hs]
  rfl

theorem text_stocked (output : Option String) : ∃ text,
    (Writing.script "d" output {}).text ((shopOf Catalog.stocked).dumpFolder "d") = .ok text := by
  obtain ⟨tables, ht⟩ := Catalog.script_stocked
  have hs : scriptOf "d" ((shopOf Catalog.stocked).dumpFolder "d") {} = .ok _ :=
    bind_eq_ok_iff.mpr ⟨_, ofFolder_shopOf _, ht {} rfl⟩
  exact ⟨_, bind_eq_ok_iff.mpr ⟨_, hs, rfl⟩⟩

theorem failed_run_sample :
    scriptAll veiled =
      { code := 1, tree := veiled
        failure := some "Failed to read catalog dump: d/views.txt" } ∧
    scriptAll (shopOf tooGreat) =
      { code := 1, tree := shopOf tooGreat
        failure := some "Invalid value '2147483648' for field 'MaxLength' in columns row 1" } ∧
    scriptAll (shopOf dangling) =
      { code := 1, tree := shopOf dangling
        failure := some "foreign key FK_Order references unknown table Buyer" } ∧
    scriptAll (shopOf twiceKeyed) =
      { code := 1, tree := shopOf twiceKeyed
        failure := some "Table Order has more than one primary key: AK_Order and PK_Order" } ∧
    ∃ (text printed : String) (written : FileTree),
      scriptAll (shopOf Catalog.stocked) = { code := 0, printed, tree := written } ∧
      ∃ place number,
        (shopOf Catalog.stocked).Wrote "/srv/out/all.sql" text.toUTF8 place number written := by
  have ha : Command.ofArguments ["script", "-i", "d", "-o", "/srv/out/all.sql", "--no-timestamp"] =
      .ok (Writing.script "d" (some "/srv/out/all.sql") {}).command := by decide +kernel
  have hf {tree : FileTree} {error : Error} {message : String}
      (h : (Writing.script "d" (some "/srv/out/all.sql") {}).Fails (tree.dumpFolder "d") error)
      (hm : firstLine error.message = message) :
      scriptAll tree = { code := 1, tree, failure := some message } :=
    hm ▸ (failed_run_writes_nothing tree none ha).1 _ h
  refine ⟨?_, ?_, ?_, ?_, ?_⟩
  · exact hf (.load load_veiled) (by decide +kernel)
  · exact hf (.decode (ofFolder_shopOf tooGreat) decode_tooGreat) (by decide +kernel)
  · have hp : dangling.Printable := by decide +kernel
    have hb : dangling.schema = .error (.unknownTable .foreignKey "FK_Order" "Buyer") := by cbv
    exact hf (.build (ofFolder_shopOf dangling) (Catalog.catalog_dump hp []) hb)
      (by decide +kernel)
  · obtain ⟨schema, hs, hd⟩ := define_twiceKeyed
    exact hf (.define (ofFolder_shopOf twiceKeyed) hs rfl hd) (by decide +kernel)
  · obtain ⟨text, ht⟩ := text_stocked (some "/srv/out/all.sql")
    have hn (error : Error) : ¬ (Writing.script "d" (some "/srv/out/all.sql") {}).Fails
        ((shopOf Catalog.stocked).dumpFolder "d") error := fun hf => by
      cases ht.symm.trans (Writing.text_eq_error_iff.mpr hf)
    obtain ⟨text, -, hw⟩ := (failed_run_writes_nothing (shopOf Catalog.stocked) none ha).2 hn
    obtain ⟨written, ho⟩ := exists_write_shop (Catalog.stocked.dump []) (fun _ => {})
      text.toUTF8
    obtain ⟨⟨printed, hr⟩, hw⟩ := hw written ho
    exact ⟨text, printed, written, hr, hw⟩

end CatalogDdl.Outcome
