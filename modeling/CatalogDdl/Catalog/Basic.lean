import CatalogDdl.Catalog.Record

/-!
# Catalogs

A catalog is what its six listings say, one list of records for each. A routine may be defined anew:
the definition then replaces that of the first routine with its name, or adds a routine at the end.
-/
namespace CatalogDdl

/-- Gives the first routine of that name the new definition, or adds the routine. -/
def Routine.define (new : Routine) : List Routine → List Routine
  | [] => [new]
  | old :: rest =>
    if old.name = new.name then { old with definition := new.definition } :: rest
    else old :: Routine.define new rest

@[simp] theorem Routine.define_nil (new : Routine) : new.define [] = [new] := rfl

/-- The records of the six listings. -/
structure Catalog where
  columns : List Column := []
  primaryKeys : List PrimaryKeyPart := []
  foreignKeys : List ForeignKeyPart := []
  indexes : List IndexPart := []
  procedures : List Routine := []
  views : List Routine := []
  deriving DecidableEq, Repr, Inhabited

namespace Catalog

def append (c d : Catalog) : Catalog where
  columns := c.columns ++ d.columns
  primaryKeys := c.primaryKeys ++ d.primaryKeys
  foreignKeys := c.foreignKeys ++ d.foreignKeys
  indexes := c.indexes ++ d.indexes
  procedures := c.procedures ++ d.procedures
  views := c.views ++ d.views

instance : Append Catalog := ⟨append⟩

def routines (c : Catalog) : Routine.Kind → List Routine
  | .procedure => c.procedures
  | .view => c.views

def define (c : Catalog) (new : Routine) : Catalog :=
  match new.kind with
  | .procedure => { c with procedures := new.define c.procedures }
  | .view => { c with views := new.define c.views }

def redefine (c : Catalog) (definitions : List Routine) : Catalog := definitions.foldl define c

@[simp] theorem redefine_nil (c : Catalog) : c.redefine [] = c := rfl

@[simp] theorem redefine_cons (c : Catalog) (new : Routine) (rest : List Routine) :
    c.redefine (new :: rest) = (c.define new).redefine rest := rfl

theorem redefine_append (c : Catalog) (ds es : List Routine) :
    c.redefine (ds ++ es) = (c.redefine ds).redefine es := by
  simp [redefine, List.foldl_append]

end Catalog
end CatalogDdl
