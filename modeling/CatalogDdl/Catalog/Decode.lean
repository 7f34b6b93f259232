import CatalogDdl.Catalog.Listing
import CatalogDdl.Catalog.Record
import CatalogDdl.Error
import CatalogDdl.ResultSet.Basic
import CatalogDdl.Text.Numeral

/-!
# Decoding rows

A row of a listing is decoded field by field into a record. The first field that is missing or has
no value of its type is the error of the row, and the first row with an error is the error of the
listing.
-/
namespace CatalogDdl
open Text

/-- A row together with the listing it is from and its number there. -/
structure ListedRow where
  row : Row
  listing : String
  /-- Counted from one. -/
  number : Nat
  deriving DecidableEq, Repr, Inhabited

namespace ListedRow

/-- The value of a field that has to be there. -/
def value (r : ListedRow) (field : String) : Except Error String :=
  match r.row.get? field with
  | some value => .ok value
  | none => .error (.absentField r.listing field r.number)

def value? (r : ListedRow) (field : String) : Option String :=
  (r.row.get? field).filter fun value => !isAbsent value

/-- The value of a field as `read` sees it. -/
def reading {α : Type} (read : List Char → Option α) (r : ListedRow) (field : String) :
    Except Error α := do
  let value ← r.value field
  match read value.toList with
  | some x => .ok x
  | none => .error (.invalidValue r.listing field value r.number)

def integer (r : ListedRow) (field : String) : Except Error Int :=
  r.reading int32? field

def truth (r : ListedRow) (field : String) : Except Error Bool := r.reading truth? field

end ListedRow

def Column.ofRow (r : ListedRow) : Except Error Column := do
  let table ← r.value "TableName"
  let name ← r.value "ColumnName"
  let dataType ← r.value "DataType"
  let maxLength ← r.integer "MaxLength"
  let precision ← r.integer "Precision"
  let scale ← r.integer "Scale"
  let isNullable ← r.truth "IsNullable"
  let isIdentity ← r.truth "IsIdentity"
  let ordinal ← r.integer "ColumnOrder"
  return {
    table, name, dataType, maxLength, precision, scale, isNullable, isIdentity, ordinal
    identitySeed := (r.value? "IdentitySeed").getD ""
    identityIncrement := (r.value? "IdentityIncrement").getD ""
    defaultValue := r.value? "DefaultValue" }

def PrimaryKeyPart.ofRow (r : ListedRow) : Except Error PrimaryKeyPart := do
  let table ← r.value "TableName"
  let constraint ← r.value "ConstraintName"
  let column ← r.value "ColumnName"
  let position ← r.integer "KeyOrder"
  return { table, constraint, column, position }

/-- The action in a field of the foreign key with that name. -/
def ListedRow.action (r : ListedRow) (constraint field : String) : Except Error ReferentialAction :=
  do
  let value ← r.value field
  match ReferentialAction.ofName? value with
  | some action => .ok action
  | none => .error (.defect (.unknownAction constraint value))

def ForeignKeyPart.ofRow (r : ListedRow) : Except Error ForeignKeyPart := do
  let constraint ← r.value "ConstraintName"
  let onDelete ← r.action constraint "OnDelete"
  let onUpdate ← r.action constraint "OnUpdate"
  let table ← r.value "TableName"
  let column ← r.value "ColumnName"
  let referencedTable ← r.value "ReferencedTable"
  let referencedColumn ← r.value "ReferencedColumn"
  return { constraint, table, column, referencedTable, referencedColumn, onDelete, onUpdate }

def IndexPart.ofRow (r : ListedRow) : Except Error IndexPart := do
  let table ← r.value "TableName"
  let index ← r.value "IndexName"
  let isUnique ← r.truth "IsUnique"
  let column ← r.value "ColumnName"
  let position ← r.integer "KeyOrder"
  return { table, index, isUnique, column, position }

/-- The name is in the field of the kind, or else in the field `Name`. A definition may be left
out. -/
def Routine.ofRow (kind : Routine.Kind) (r : ListedRow) : Except Error Routine :=
  match (r.row.get? kind.namedBy).or (r.row.get? "Name") with
  | some name => .ok { kind, name, definition := (r.row.get? "Definition").getD "" }
  | none => .error (.absentField r.listing kind.namedBy r.number)

def decodeFrom {α : Type} (decode : ListedRow → Except Error α) (listing : String) :
    Nat → List Row → Except Error (List α)
  | _, [] => .ok []
  | number, row :: rest => do
    let record ← decode ⟨row, listing, number⟩
    let records ← decodeFrom decode listing (number + 1) rest
    return record :: records

@[simp] theorem decodeFrom_nil {α : Type} (decode : ListedRow → Except Error α) (listing : String)
    (number : Nat) : decodeFrom decode listing number [] = .ok [] := rfl

def decodeRows {α : Type} (decode : ListedRow → Except Error α) (listing : Listing)
    (rows : List Row) :
    Except Error (List α) :=
  decodeFrom decode listing.label 1 rows

def Column.ofRows : List Row → Except Error (List Column) := decodeRows Column.ofRow .columns

def PrimaryKeyPart.ofRows : List Row → Except Error (List PrimaryKeyPart) :=
  decodeRows PrimaryKeyPart.ofRow .primaryKeys

def ForeignKeyPart.ofRows : List Row → Except Error (List ForeignKeyPart) :=
  decodeRows ForeignKeyPart.ofRow .foreignKeys

def IndexPart.ofRows : List Row → Except Error (List IndexPart) :=
  decodeRows IndexPart.ofRow .indexes

def Routine.Kind.listing : Routine.Kind → Listing
  | .procedure => .procedures
  | .view => .views

def Routine.ofRows (kind : Routine.Kind) : List Row → Except Error (List Routine) :=
  decodeRows (Routine.ofRow kind) kind.listing

end CatalogDdl
