import CatalogDdl.Catalog.Record

/-!
# Data types

A column's type is written as its catalog name, with a length or a precision where the type takes
one.
-/
namespace CatalogDdl

/-- What a type name is followed by. -/
inductive DataType.Family where
  /-- A length in bytes. -/
  | bytes
  /-- A length in characters of two bytes each. -/
  | wide
  /-- A precision and a scale. -/
  | decimal
  /-- Nothing. -/
  | plain
  deriving DecidableEq, Repr

namespace DataType

/-- The length that stands for no bound. -/
def unbounded : Int := -1

/-- The family of a type name, whatever the case of its ASCII letters. -/
def family (name : String) : Family :=
  let lower := String.ofList (name.toList.map Char.toLower)
  if lower ∈ ["char", "varchar", "binary", "varbinary"] then .bytes
  else if lower ∈ ["nchar", "nvarchar"] then .wide
  else if lower ∈ ["decimal", "numeric"] then .decimal
  else .plain

def length (n : Int) : String := "(" ++ toString n ++ ")"

/-- What follows the type name in a family. Half a length is rounded toward zero. -/
def suffix (family : Family) (maxLength precision scale : Int) : String :=
  match family with
  | .bytes => if maxLength = unbounded then "(MAX)" else length maxLength
  | .wide => if maxLength = unbounded then "(MAX)" else length (maxLength.tdiv 2)
  | .decimal => "(" ++ toString precision ++ "," ++ toString scale ++ ")"
  | .plain => ""

def render (name : String) (maxLength precision scale : Int) : String :=
  name ++ suffix (family name) maxLength precision scale

end DataType

def Column.type (column : Column) : String :=
  DataType.render column.dataType column.maxLength column.precision column.scale

end CatalogDdl
