import CatalogDdl.Text.Blank

/-!
# Listings

A catalog is described by six listings. Each is the printed result of one query, whose field names
are those that the rows are decoded by.
-/
namespace CatalogDdl
open Text

/-- The six listings of a catalog. -/
inductive Listing where
  | columns
  | primaryKeys
  | foreignKeys
  | indexes
  | procedures
  | views
  deriving DecidableEq, Repr

namespace Listing

/-- All listings, in the order in which they are read. -/
def all : List Listing := [columns, primaryKeys, foreignKeys, indexes, procedures, views]

theorem mem_all (listing : Listing) : listing ∈ all := by cases listing <;> simp [all]

def name : Listing → String
  | columns => "columns"
  | primaryKeys => "primary-keys"
  | foreignKeys => "foreign-keys"
  | indexes => "indexes"
  | procedures => "procedures"
  | views => "views"

/-- The name of a listing in error messages. -/
def label : Listing → String
  | columns => "columns"
  | primaryKeys => "primary keys"
  | foreignKeys => "foreign keys"
  | indexes => "indexes"
  | procedures => "procedures"
  | views => "views"

def file : Listing → String
  | columns => "columns.txt"
  | primaryKeys => "primary_keys.txt"
  | foreignKeys => "foreign_keys.txt"
  | indexes => "indexes.txt"
  | procedures => "procedures.txt"
  | views => "views.txt"

/-- What the query selects, with the field name of each expression. -/
def selection : Listing → List (String × String)
  | columns =>
    [("t.name", "TableName"),
     ("c.name", "ColumnName"),
     ("ty.name", "DataType"),
     ("c.max_length", "MaxLength"),
     ("c.precision", "Precision"),
     ("c.scale", "Scale"),
     ("c.is_nullable", "IsNullable"),
     ("c.is_identity", "IsIdentity"),
     ("ISNULL(CAST(ic.seed_value AS VARCHAR), '')", "IdentitySeed"),
     ("ISNULL(CAST(ic.increment_value AS VARCHAR), '')", "IdentityIncrement"),
     ("ISNULL(dc.definition, '')", "DefaultValue"),
     ("c.column_id", "ColumnOrder")]
  | primaryKeys =>
    [("t.name", "TableName"),
     ("kc.name", "ConstraintName"),
     ("c.name", "ColumnName"),
     ("ic.key_ordinal", "KeyOrder")]
  | foreignKeys =>
    [("OBJECT_NAME(fk.parent_object_id)", "TableName"),
     ("fk.name", "ConstraintName"),
     ("COL_NAME(fkc.parent_object_id, fkc.parent_column_id)", "ColumnName"),
     ("OBJECT_NAME(fk.referenced_object_id)", "ReferencedTable"),
     ("COL_NAME(fkc.referenced_object_id, fkc.referenced_column_id)", "ReferencedColumn"),
     ("fk.delete_referential_action_desc", "OnDelete"),
     ("fk.update_referential_action_desc", "OnUpdate")]
  | indexes =>
    [("t.name", "TableName"),
     ("i.name", "IndexName"),
     ("i.is_unique", "IsUnique"),
     ("c.name", "ColumnName"),
     ("ic.key_ordinal", "KeyOrder")]
  | procedures =>
    [("p.name", "ProcedureName"),
     ("OBJECT_DEFINITION(p.object_id)", "Definition")]
  | views =>
    [("v.name", "ViewName"),
     ("OBJECT_DEFINITION(v.object_id)", "Definition")]

def clauses : Listing → List String
  | columns =>
    ["FROM sys.tables t",
     "INNER JOIN sys.columns c ON t.object_id = c.object_id",
     "INNER JOIN sys.types ty ON c.user_type_id = ty.user_type_id",
     "LEFT JOIN sys.default_constraints dc ON c.default_object_id = dc.object_id",
     "LEFT JOIN sys.identity_columns ic ON c.object_id = ic.object_id AND c.column_id = ic.column_id",
     "WHERE t.type = 'U'",
     "ORDER BY t.name, c.column_id"]
  | primaryKeys =>
    ["FROM sys.tables t",
     "INNER JOIN sys.key_constraints kc ON t.object_id = kc.parent_object_id",
     "INNER JOIN sys.index_columns ic ON kc.parent_object_id = ic.object_id AND kc.unique_index_id = ic.index_id",
     "INNER JOIN sys.columns c ON ic.object_id = c.object_id AND ic.column_id = c.column_id",
     "WHERE kc.type = 'PK'",
     "ORDER BY t.name, ic.key_ordinal"]
  | foreignKeys =>
    ["FROM sys.foreign_keys fk",
     "INNER JOIN sys.foreign_key_columns fkc ON fk.object_id = fkc.constraint_object_id",
     "ORDER BY TableName, ConstraintName, fkc.constraint_column_id"]
  | indexes =>
    ["FROM sys.tables t",
     "INNER JOIN sys.indexes i ON t.object_id = i.object_id",
     "INNER JOIN sys.index_columns ic ON i.object_id = ic.object_id AND i.index_id = ic.index_id",
     "INNER JOIN sys.columns c ON ic.object_id = c.object_id AND ic.column_id = c.column_id",
     "WHERE i.is_primary_key = 0 AND i.type > 0",
     "ORDER BY t.name, i.name, ic.key_ordinal"]
  | procedures =>
    ["FROM sys.procedures p",
     "WHERE p.type = 'P'",
     "ORDER BY p.name"]
  | views =>
    ["FROM sys.views v",
     "ORDER BY v.name"]

def fields (listing : Listing) : List String := listing.selection.map (·.2)

def query (listing : Listing) : String :=
  "SELECT\n"
    ++ ",\n".intercalate (listing.selection.map fun (expression, field) => "    " ++ expression
      ++ " AS " ++ field)
    ++ "\n" ++ "\n".intercalate listing.clauses ++ ";"

/-- The listing of that name. Blanks around the name, the case of ASCII letters and the choice
between `_` and `-` do not matter. -/
def ofName? (name : String) : Option Listing :=
  let plain := (trim name.toList).map fun c => if c = '_' then '-' else c.toLower
  all.find? fun listing => listing.name.toList == plain

def unknownName (name : String) : String :=
  "unknown catalog query '" ++ name
    ++ "' (expected one of: columns, primary-keys, foreign-keys, indexes, procedures, views)"

end Listing
end CatalogDdl
