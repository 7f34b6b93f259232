import CatalogDdl.Text.Blank

/-!
# Catalog records

One record for one row of a listing. A key or an index over several columns has one row for each
column, so a row of those listings is only a part of it.
-/
namespace CatalogDdl
open Text

structure Column where
  table : String
  name : String
  dataType : String
  /-- In bytes; `-1` stands for an unbounded length. -/
  maxLength : Int
  precision : Int
  scale : Int
  isNullable : Bool
  isIdentity : Bool
  /-- Empty if the catalog gives none. -/
  identitySeed : String
  /-- Empty if the catalog gives none. -/
  identityIncrement : String
  defaultValue : Option String
  /-- The place of the column in its table. -/
  ordinal : Int
  deriving DecidableEq, Repr, Inhabited

/-- One column of a primary key. -/
structure PrimaryKeyPart where
  table : String
  constraint : String
  column : String
  position : Int
  deriving DecidableEq, Repr, Inhabited

/-- What becomes of referring rows when a referenced row is deleted or updated. -/
inductive ReferentialAction where
  | noAction
  | cascade
  | setNull
  | setDefault
  deriving DecidableEq, Repr, Inhabited

namespace ReferentialAction

def all : List ReferentialAction := [noAction, cascade, setNull, setDefault]

def name : ReferentialAction → String
  | noAction => "NO_ACTION"
  | cascade => "CASCADE"
  | setNull => "SET_NULL"
  | setDefault => "SET_DEFAULT"

def sql : ReferentialAction → String
  | noAction => "NO ACTION"
  | cascade => "CASCADE"
  | setNull => "SET NULL"
  | setDefault => "SET DEFAULT"

/-- The action of that name. Blanks around the name, the case of ASCII letters and the choice
between a space and `_` do not matter. -/
def ofName? (name : String) : Option ReferentialAction :=
  let plain := (trim name.toList).map fun c => if c = ' ' then '_' else c.toUpper
  all.find? fun action => action.name.toList == plain

end ReferentialAction

/-- One pair of columns of a foreign key. -/
structure ForeignKeyPart where
  constraint : String
  table : String
  column : String
  referencedTable : String
  referencedColumn : String
  onDelete : ReferentialAction
  onUpdate : ReferentialAction
  deriving DecidableEq, Repr, Inhabited

/-- One column of an index other than a primary key. -/
structure IndexPart where
  table : String
  index : String
  isUnique : Bool
  column : String
  /-- Zero for a column that the index only includes. -/
  position : Int
  deriving DecidableEq, Repr, Inhabited

/-- The objects whose definition is carried over word for word. -/
inductive Routine.Kind where
  | procedure
  | view
  deriving DecidableEq, Repr, Inhabited

structure Routine where
  kind : Routine.Kind
  name : String
  definition : String
  deriving DecidableEq, Repr, Inhabited

namespace Routine.Kind

/-- The type code by which a statement asks whether an object exists. -/
def typeCode : Routine.Kind → String
  | procedure => "P"
  | view => "V"

def word : Routine.Kind → String
  | procedure => "PROCEDURE"
  | view => "VIEW"

def label : Routine.Kind → String
  | procedure => "Stored Procedure"
  | view => "View"

/-- The field that holds the name in the listing of the kind. -/
def namedBy : Routine.Kind → String
  | procedure => "ProcedureName"
  | view => "ViewName"

end Routine.Kind
end CatalogDdl
