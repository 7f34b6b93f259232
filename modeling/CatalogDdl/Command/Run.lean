import CatalogDdl.Command.Arguments
import CatalogDdl.Dump.Basic
import CatalogDdl.Text.Lines

/-!
# Running a command

A command looks at a dump folder and reports what to write and what to print. It writes at most one
file, and prints only after that file is written, so a command that fails leaves every file as it
was.
-/
namespace CatalogDdl

namespace Command

/-- What a command comes to when nothing fails. -/
structure Report where
  /-- The path and the text of the file to write. -/
  file : Option (String × String) := none
  /-- What to print once the file is written. -/
  printed : String := ""
  deriving DecidableEq, Repr

def input? : Command → Option String
  | script input .. | routines _ input _ | table input _ => some input
  | queries _ => none

def countLines (counts : Counts) : String :=
  "  Tables:            " ++ toString counts.tables ++ "\n"
    ++ "  Stored procedures: " ++ toString counts.procedures ++ "\n"
    ++ "  Views:             " ++ toString counts.views ++ "\n"
    ++ "  Primary keys:      " ++ toString counts.primaryKeys ++ "\n"
    ++ "  Foreign keys:      " ++ toString counts.foreignKeys ++ "\n"
    ++ "  Indexes:           " ++ toString counts.indexes ++ "\n"

def skipLines (skipped : List Skip) : String :=
  if skipped.isEmpty then ""
  else "Skipped " ++ toString skipped.length ++ " table(s):\n"
    ++ String.join (skipped.map fun skip => "  " ++ skip.name ++ ": "
      ++ skip.reason.message ++ "\n")

/-- The file that the routines of a kind are written to unless another is given. -/
def routineFile : Routine.Kind → String
  | .procedure => "stored_procedures.sql"
  | .view => "views.sql"

def kindWord : Routine.Kind → String
  | .procedure => "stored procedure"
  | .view => "view"

def queryText (listing : Listing) : String :=
  "-- " ++ listing.name ++ " -> " ++ listing.file ++ "\n" ++ listing.query ++ "\n\n"

/-- The schema of a dump folder, read with the usual settings. -/
def schemaOf (input : String) (folder : Folder) : Except Error Schema := do
  let dump ← Dump.ofFolder input folder
  dump.schema Settings.usual.delimiter

def scriptOf (input : String) (folder : Folder) (settings : Settings) : Except Error Script := do
  let dump ← Dump.ofFolder input folder
  dump.script settings

/-- What the command comes to, given what its folder holds and the time. A failure is a message. -/
def report (command : Command) (folder : Folder) (now : Option Timestamp) : Except String Report :=
  match command with
  | .script input output settings isStamped => do
    let settings := { settings with madeAt := if isStamped then now else none }
    let script ← (scriptOf input folder settings).mapError Error.message
    let path := output.getD (Path.join input "schema.sql")
    return {
      file := some (path, script.text)
      printed := "Schema script written to " ++ path ++ "\n" ++ countLines script.counts
        ++ skipLines script.skipped }
  | .routines kind input output => do
    let schema ← (schemaOf input folder).mapError Error.message
    let path := output.getD (Path.join input (routineFile kind))
    return {
      file := some (path, schema.routineScript kind .usual)
      printed :=
        "Wrote " ++ toString (schema.routines kind).length ++ " " ++ kindWord kind ++ "(s) to "
        ++ path ++ "\n" }
  | .table input name => do
    let schema ← (schemaOf input folder).mapError Error.message
    match schema.table? name with
    | none => .error ("Table not found in catalog dumps: " ++ name)
    | some found => do
      let definition ← found.define.mapError Defect.message
      return { printed := definition.sql }
  | .queries listing =>
    .ok { printed := String.join ((listing.elim Listing.all fun one => [one]).map queryText) }

end Command

/-- How a run of the command line ends. -/
structure Outcome where
  code : Nat
  printed : String := ""
  failure : Option String := none
  /-- The files after the run. -/
  tree : FileTree

namespace Outcome

/-- The first line of a message, which is shown with a line feed behind it. -/
def firstLine (message : String) : String :=
  String.ofList ((Text.lines (message.toList ++ ['\n'])).headD [])

def failed (tree : FileTree) (message : String) : Outcome :=
  { code := 1, failure := some (firstLine message), tree }

def ofReport (tree : FileTree) (report : Command.Report) : Outcome :=
  match report.file with
  | none => { code := 0, printed := report.printed, tree }
  | some (path, text) =>
    match tree.write path text.toUTF8 with
    | .ok tree => { code := 0, printed := report.printed, tree }
    | .error tree => failed tree (Error.unwritable path).message

def ofCommand (tree : FileTree) (now : Option Timestamp) (command : Command) : Outcome :=
  let folder := (command.input?.map tree.dumpFolder).getD {}
  match command.report folder now with
  | .ok report => ofReport tree report
  | .error message => failed tree message

def ofArguments (tree : FileTree) (now : Option Timestamp) (arguments : List String) : Outcome :=
  match Command.ofArguments arguments with
  | .ok command => ofCommand tree now command
  | .error .refused => { code := 2, tree }
  | .error .asked => { code := 0, tree }

end Outcome
end CatalogDdl
