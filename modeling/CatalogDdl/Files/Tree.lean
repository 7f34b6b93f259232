import CatalogDdl.Files.Path

/-!
# File trees

A tree of folders, files and links, as a list of places with what stands there. A place is the list
of names that leads to it from the root, and the root is the empty one. A file has a number, so
that it can stand at several places, and a link has the path that is followed in its stead. A path
is followed step by step, so that `a/..` leads somewhere only if `a` is a folder.
-/
namespace CatalogDdl

/-- What may be done with a file or a folder. To enter a folder is to follow a step out of it. -/
structure Rights where
  read : Bool := true
  write : Bool := true
  enter : Bool := true
  deriving DecidableEq, Repr

structure File where
  bytes : ByteArray := .empty
  rights : Rights := {}

inductive Node where
  | file (number : Nat)
  | folder (rights : Rights)
  | link (target : String)
  deriving DecidableEq, Repr

structure FileTree where
  entries : List (List String × Node) := []
  file : Nat → File := fun _ => {}
  /-- The rights on the root. -/
  root : Rights := {}
  /-- The folder from which relative paths start. -/
  start : List String := []

/-- How far steps have led, and how many links may still be followed. -/
structure Spot where
  place : List String
  links : Nat
  deriving DecidableEq, Repr

namespace FileTree

def node? (tree : FileTree) (place : List String) : Option Node :=
  if place = [] then some (.folder tree.root) else tree.entries.lookup place

def folder (tree : FileTree) (place : List String) : Except PathFault Rights :=
  match tree.node? place with
  | none => .error .notFound
  | some (.folder rights) => .ok rights
  | some _ => .error .notFolder

/-- Whether the step can be taken from the place. Only an empty step needs no right to it. -/
def enter (tree : FileTree) (place : List String) (step : String) : Except PathFault Unit := do
  let rights ← tree.folder place
  if step = "" || rights.enter then .ok () else .error .denied

/-- Follows steps from a place. From a link on, `follow` goes on, with the steps of its path in
front of the rest. -/
def walkBy (tree : FileTree) (links : Nat)
    (follow : List String → List String → Except PathFault Spot) (place : List String) :
    List String → Except PathFault Spot
  | [] => .ok ⟨place, links⟩
  | step :: rest => do
    tree.enter place step
    if Path.isIdle step then tree.walkBy links follow place rest
    else if step = ".." then tree.walkBy links follow place.dropLast rest
    else if 255 < step.utf8ByteSize then .error .tooLong
    else
      match tree.node? (place ++ [step]) with
      | some (.link target) =>
        follow (if Path.isAbsolute target then [] else place) (Path.steps target ++ rest)
      | _ => tree.walkBy links follow (place ++ [step]) rest

def walkWithin (tree : FileTree) : Nat → List String → List String → Except PathFault Spot
  | 0 => tree.walkBy 0 fun _ _ => .error .looped
  | links + 1 => tree.walkBy (links + 1) (tree.walkWithin links)

def walk (tree : FileTree) (spot : Spot) : List String → Except PathFault Spot :=
  tree.walkWithin spot.links spot.place

/-- Where the steps of a path start. -/
def origin (tree : FileTree) (path : String) : Spot :=
  ⟨if Path.isAbsolute path then [] else tree.start, 40⟩

/-- The place that a path leads to, whatever stands there. -/
def resolve (tree : FileTree) (path : String) : Except PathFault (List String) := do
  Path.check path
  let spot ← tree.walk (tree.origin path) (Path.steps path)
  return spot.place

def isFolder (tree : FileTree) (path : String) : Bool := (tree.resolve path >>= tree.folder).isOk

def names (tree : FileTree) (place : List String) : List String :=
  tree.entries.filterMap fun (here, _) => if here.dropLast = place then here.getLast? else none

/-- The names of what stands in the folder that a path leads to. -/
def list (tree : FileTree) (path : String) : Except PathFault (List String) := do
  let place ← tree.resolve path
  let rights ← tree.folder place
  if rights.read then return tree.names place else .error .denied

def put (tree : FileTree) (place : List String) (node : Node) : FileTree :=
  { tree with entries := (place, node) :: tree.entries.filter fun entry => entry.1 ≠ place }

def setFile (tree : FileTree) (number : Nat) (file : File) : FileTree :=
  { tree with file := fun other => if other = number then file else tree.file other }

def fresh (tree : FileTree) : Nat :=
  tree.entries.foldr (fun entry bound => match entry.2 with
    | .file number => max bound (number + 1)
    | _ => bound) 0

def takesNew (tree : FileTree) (place : List String) : Bool :=
  match tree.folder place with
  | .ok rights => rights.write && rights.enter
  | .error _ => false

/-- Makes the folders that steps lead through. Where that fails, those made before stay. -/
def makeFolders (tree : FileTree) (spot : Spot) : List String → Except FileTree FileTree
  | [] => .ok tree
  | step :: rest =>
    match tree.walk spot [step] with
    | .error _ => .error tree
    | .ok next =>
      match tree.node? next.place with
      | some (.folder _) => tree.makeFolders next rest
      | some _ => .error tree
      | none =>
        -- Nothing is made behind a link that leads nowhere.
        if next.place = spot.place ++ [step] ∧ tree.takesNew spot.place then
          (tree.put next.place (.folder {})).makeFolders next rest
        else .error tree

/-- Makes the folders above a path. -/
def makeAbove (tree : FileTree) (path : String) : Except FileTree FileTree :=
  let steps := Path.above path
  if steps = [] || (Path.check ("/".intercalate steps)).isOk then
    tree.makeFolders (tree.origin path) steps
  else .error tree

/-- Gives the file at a place new bytes. Where nothing stands a file is made. -/
def store (tree : FileTree) (place : List String) (bytes : ByteArray) : Option FileTree :=
  match tree.node? place with
  | some (.file number) =>
    let file := tree.file number
    if file.rights.write then some (tree.setFile number { file with bytes }) else none
  | some _ => none
  | none =>
    if tree.takesNew place.dropLast then
      some ((tree.put place (.file tree.fresh)).setFile tree.fresh { bytes })
    else none

/-- Writes a file and makes the folders above it. Where that fails, the folders made stay. -/
def write (tree : FileTree) (path : String) (bytes : ByteArray) : Except FileTree FileTree := do
  let made ← tree.makeAbove path
  match made.resolve path with
  | .error _ => .error made
  | .ok place =>
    match made.store place bytes with
    | some written => .ok written
    | none => .error made

end FileTree
end CatalogDdl
