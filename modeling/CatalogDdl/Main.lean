import CatalogDdl.Command.Run

/-!
# The program

Reads the arguments and the dump folder, and carries out what the command reports.
-/
namespace CatalogDdl.Main

/-- Holds of the paths that lead somewhere. -/
def isPresent (path : String) : IO Bool := do
  try
    discard (IO.FS.realPath path)
    return (Path.check path).isOk
  catch _ =>
    return false

def pathFault : IO.Error → PathFault
  | .permissionDenied .. => .denied
  | .inappropriateType .. => .notFolder
  | _ => .notFound

def readContents (path : String) : IO Contents := do
  if let .error fault := Path.check path then return .error (.path fault)
  try
    return .ok (← IO.FS.readBinFile path)
  catch
    | .permissionDenied .. => return .error (.path .denied)
    | error => return .error (if ← isPresent path then .isFolder else .path (pathFault error))

def readNames (path : String) : IO (Except Error (List String)) := do
  try
    let folder ← IO.FS.realPath path
    return .ok ((← folder.readDir).toList.map fun entry => entry.fileName)
  catch error =>
    return .error (.unreadable path (.path (pathFault error)))

/-- The files with a definition of the kind in the dump folder at the path. -/
def readDefinitions (path : String) (kind : Routine.Kind) :
    IO (Except Error (List (String × Contents))) := do
  let some folder := kind.folderPath? path | return .ok []
  unless ← isPresent (Path.join path kind.folderName ++ "/.") do return .ok []
  for above in Path.searched folder do
    if let .error error ← readNames above then return .error error
  match ← readNames folder with
  | .error error => return .error error
  | .ok names =>
    return .ok (← (names.filter isDefinitionFile).mapM fun name => do
      return (name, ← readContents (folder ++ "/" ++ name)))

def readFolder (path : String) : IO Folder := do
  let mut listings := []
  for listing in Listing.all do
    let file := Path.join path listing.file
    if listing = .columns || (← isPresent file) then
      listings := (listing, ← readContents file) :: listings
  return {
    listings
    procedures := ← readDefinitions path .procedure
    views := ← readDefinitions path .view }

def writeText (path text : String) : IO Bool := do
  try
    unless Path.above path = [] do IO.FS.createDirAll ("/".intercalate (Path.above path))
    IO.FS.writeFile path text
    return true
  catch _ =>
    return false

/-- The time at which a new file is made. -/
def clock : IO (Option Timestamp) := do
  try
    let (_, path) ← IO.FS.createTempFile
    let metadata ← path.metadata
    IO.FS.removeFile path
    return some (Timestamp.ofSeconds metadata.modified.sec)
  catch _ =>
    return none

def usage : String :=
  String.join (Command.Verb.all.map fun verb =>
    verb.word ++ String.join (verb.parameters.map fun parameter => " --" ++ parameter.long) ++ "\n")

def fail (message : String) : IO UInt32 := do
  IO.eprintln ("Error: " ++ message)
  return 1

def carryOut (command : Command) : IO UInt32 := do
  let folder ← match command.input? with
    | some path => readFolder path
    | none => pure {}
  match command.report folder (← clock) with
  | .error message => fail message
  | .ok report =>
    if let some (path, text) := report.file then
      unless ← writeText path text do return ← fail (Error.unwritable path).message
    IO.print report.printed
    return 0

end CatalogDdl.Main

def main (arguments : List String) : IO UInt32 :=
  match CatalogDdl.Command.ofArguments arguments with
  | .ok command => CatalogDdl.Main.carryOut command
  | .error .asked => do
    IO.print CatalogDdl.Main.usage
    return 0
  | .error .refused => do
    IO.eprint CatalogDdl.Main.usage
    return 2
