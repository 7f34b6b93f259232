import CatalogDdl.Catalog.Listing
import CatalogDdl.Catalog.Record
import CatalogDdl.Error
import CatalogDdl.Files.Tree

/-!
# Dump folders

A dump folder holds a file for each listing, and in its folders `procedures` and `views` a file for
each routine whose definition was fetched by itself. A `Folder` is what was found there.
-/
namespace CatalogDdl

/-- What a path holds: the bytes of a file, or why they cannot be read. -/
abbrev Contents := Except ReadFault ByteArray

/-- What a dump folder was found to hold. -/
structure Folder where
  /-- The listings that are read, which are those whose path exists and the columns. -/
  listings : List (Listing × Contents) := []
  /-- The files with the definition of a procedure, by name, or why they cannot be listed. -/
  procedures : Except Error (List (String × Contents)) := .ok []
  /-- The files with the definition of a view. -/
  views : Except Error (List (String × Contents)) := .ok []

namespace Folder

def listing? (folder : Folder) (listing : Listing) : Option Contents :=
  folder.listings.lookup listing

def definitions (folder : Folder) : Routine.Kind → Except Error (List (String × Contents))
  | .procedure => folder.procedures
  | .view => folder.views

end Folder

def Routine.Kind.folderName : Routine.Kind → String
  | .procedure => "procedures"
  | .view => "views"

/-- The path by which the files of the folder of definitions are read, for the dump folder at
`path`. -/
def Routine.Kind.folderPath? (kind : Routine.Kind) (path : String) : Option String :=
  Path.tidy? (Path.join path kind.folderName)

def definitionSuffix : List Char := ['.', 's', 'q', 'l']

def isDefinitionFile (name : String) : Bool := definitionSuffix.isSuffixOf name.toList

/-- The routine whose definition is in a file of that name. A name that is nothing but the ending is
taken whole. -/
def routineName (fileName : String) : String :=
  if fileName.toList = definitionSuffix then fileName
  else String.ofList (fileName.toList.take (fileName.toList.length - definitionSuffix.length))

namespace FileTree

/-- What stands at a place for a reader. -/
def contentsAt (tree : FileTree) (place : List String) : Option Contents :=
  (tree.node? place).map fun
    | .file number =>
      let file := tree.file number
      if file.rights.read then .ok file.bytes else .error (.path .denied)
    | .folder rights => .error (if rights.read then .isFolder else .path .denied)
    | .link _ => .error (.path .notFound)

/-- What a path leads to, if it is there. -/
def contents? (tree : FileTree) (path : String) : Option Contents :=
  match tree.resolve path with
  | .ok place => tree.contentsAt place
  | .error _ => none

def read (tree : FileTree) (path : String) : Contents :=
  match tree.resolve path with
  | .ok place => (tree.contentsAt place).getD (.error (.path .notFound))
  | .error fault => .error (.path fault)

/-- The names of what stands in a folder; the error names the folder by its path. -/
def listed (tree : FileTree) (path : String) : Except Error (List String) :=
  (tree.list path).mapError fun fault => .unreadable path (.path fault)

/-- The files with a definition of the kind. To find them, folders on the way may have to be listed
as well. -/
def definitionEntries (tree : FileTree) (path : String) (kind : Routine.Kind) :
    Except Error (List (String × Contents)) :=
  match kind.folderPath? path with
  | none => .ok []
  | some folder =>
    if tree.isFolder (Path.join path kind.folderName) then do
      discard ((Path.searched folder).mapM tree.listed)
      let names ← tree.listed folder
      return (names.filter isDefinitionFile).map fun name =>
        (name, tree.read (folder ++ "/" ++ name))
    else .ok []

def dumpFolder (tree : FileTree) (path : String) : Folder where
  listings := Listing.all.filterMap fun listing =>
    let file := Path.join path listing.file
    if listing = .columns || (tree.contents? file).isSome then some (listing, tree.read file)
    else none
  procedures := tree.definitionEntries path .procedure
  views := tree.definitionEntries path .view

end FileTree
end CatalogDdl
