import CatalogDdl.Files.Path

/-!
# What can go wrong

A `Defect` says how a catalog contradicts itself. An `Error` is a defect, or a file or a value that
cannot be read or written. `message` gives the wording of each.
-/
namespace CatalogDdl

/-- The objects of a table that several catalog rows describe together. -/
inductive TableObject where
  | primaryKey
  | foreignKey
  | index
  deriving DecidableEq, Repr

def TableObject.label : TableObject → String
  | .primaryKey => "primary key"
  | .foreignKey => "foreign key"
  | .index => "index"

inductive Conflict where
  | owners (first second : String)
  | referencedTables (first second : String)
  | actions
  /-- Counted from one. -/
  | halfPair (position : Nat)
  | uniqueness
  deriving DecidableEq, Repr

def Conflict.message : Conflict → String
  | .owners first second => "owned by both " ++ first ++ " and " ++ second
  | .referencedTables first second => "referenced table " ++ first ++ " vs " ++ second
  | .actions => "referential actions differ"
  | .halfPair position => "column pair " ++ toString position ++ " is missing one side"
  | .uniqueness => "uniqueness flag differs between columns"

/-- A contradiction within a catalog. -/
inductive Defect where
  | repeatedOrdinal (table : String) (ordinal : Int)
  | unknownTable (object : TableObject) (name table : String)
  | unevenForeignKey (name : String) (columns referenced : Nat)
  | conflict (object : TableObject) (name : String) (how : Conflict)
  | secondPrimaryKey (table first second : String)
  | halfIdentity (table column : String)
  | unknownAction (foreignKey action : String)
  deriving DecidableEq, Repr

namespace Defect

def message : Defect → String
  | repeatedOrdinal table ordinal =>
    "Duplicate column ordinal " ++ toString ordinal ++ " in table " ++ table
  | unknownTable object name table =>
    object.label ++ " " ++ name ++ " references unknown table " ++ table
  | unevenForeignKey name columns referenced =>
    "Foreign key " ++ name ++ " has " ++ toString columns ++ " owning column(s) but "
      ++ toString referenced ++ " referenced column(s)"
  | conflict object name how =>
    "Inconsistent fragments for " ++ object.label ++ " " ++ name ++ ": " ++ how.message
  | secondPrimaryKey table first second =>
    "Table " ++ table ++ " has more than one primary key: " ++ first ++ " and " ++ second
  | halfIdentity table column =>
    "Partial identity metadata for column " ++ column ++ " in table " ++ table
      ++ ": seed and increment must both be present or both empty"
  | unknownAction foreignKey action =>
    "Unknown referential action '" ++ action ++ "' on foreign key " ++ foreignKey

def table? : Defect → Option String
  | repeatedOrdinal table _ | unknownTable _ _ table | secondPrimaryKey table _ _
  | halfIdentity table _ => some table
  | unevenForeignKey .. | conflict .. | unknownAction .. => none

end Defect

/-- Why no text can be read at a path. -/
inductive ReadFault where
  | path (fault : PathFault)
  | isFolder
  | malformed
  deriving DecidableEq, Repr

/-- Why a catalog cannot be turned into a script. Rows are counted from one. -/
inductive Error where
  | unreadable (path : String) (fault : ReadFault)
  | unwritable (path : String)
  | absentField (listing field : String) (row : Nat)
  | invalidValue (listing field value : String) (row : Nat)
  | defect (defect : Defect)
  deriving DecidableEq, Repr

namespace Error

def message : Error → String
  | unreadable path _ => "Failed to read catalog dump: " ++ path
  | unwritable path => "Failed to write script to " ++ path
  | absentField listing field row =>
    "Missing field '" ++ field ++ "' in " ++ listing ++ " row " ++ toString row
  | invalidValue listing field value row =>
    "Invalid value '" ++ value ++ "' for field '" ++ field ++ "' in " ++ listing ++ " row "
      ++ toString row
  | defect d => d.message

def isDefect : Error → Bool
  | defect _ => true
  | unreadable .. | unwritable .. | absentField .. | invalidValue .. => false

def table? : Error → Option String
  | defect d => d.table?
  | unreadable .. | unwritable .. | absentField .. | invalidValue .. => none

end Error
end CatalogDdl
