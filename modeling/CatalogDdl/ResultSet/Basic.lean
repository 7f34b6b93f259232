import CatalogDdl.ResultSet.RowCount

/-!
# Result sets

A result set is printed as a line of field names, a ruled line, one line for each row and a row
count. Blank lines mean nothing, and neither do blanks around a line or a field. What follows the
row count is not read. A data line with too few or too many fields is no row; it is counted instead.
-/
namespace CatalogDdl
open Text

/-- One row: the field names of its result set and its values, in the same order. -/
structure Row where
  fields : List String
  values : List String
  deriving DecidableEq, Repr, Inhabited

namespace Row

/-- The value under the first field of that name. -/
def get? (row : Row) (field : String) : Option String :=
  (row.fields.idxOf? field).bind (row.values[·]?)

theorem get?_eq_none_of_not_mem {row : Row} {field : String} (h : field ∉ row.fields) :
    row.get? field = none := by
  simp [get?, List.idxOf?_eq_none_iff.mpr h]

def pairs (row : Row) : List (String × String) := row.fields.zip row.values

end Row

/-- The rows of a printed result set, and the number of its data lines that were no row. -/
structure ResultSet where
  rows : List Row := []
  skipped : Nat := 0
  deriving DecidableEq, Repr, Inhabited

namespace ResultSet

/-- The lines that are not blank, without the blanks around them. -/
def contentLines (text : List Char) : List (List Char) :=
  ((lines text).map trim).filter (!·.isEmpty)

/-- The fields of a line, without the blanks around them. -/
def cells (delimiter : Char) (line : List Char) : List String :=
  (line.splitOn delimiter).map fun cell => String.ofList (trim cell)

def ofLines (delimiter : Char) (fields : List String) (data : List (List Char)) : ResultSet where
  rows := (data.map (cells delimiter)).filterMap fun values =>
    if values.length = fields.length then some ⟨fields, values⟩ else none
  skipped := (data.map (cells delimiter)).countP fun values => values.length ≠ fields.length

/-- Reads a printed result set. Without a ruled line there are no rows. -/
def parse (delimiter : Char) (text : String) : ResultSet :=
  match contentLines text.toList with
  | header :: _ruled :: data =>
    ofLines delimiter (cells delimiter header) (data.takeWhile (!isRowCount ·))
  | _ => {}

end ResultSet
end CatalogDdl
