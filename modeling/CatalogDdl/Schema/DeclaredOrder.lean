import CatalogDdl.Catalog.Record

/-!
# The declared order of tables

Tables are declared so that a referenced table comes before those that refer to it. Of the tables
that may come next, the one with the least name does. Once every table left waits for another one,
the rest follows by name.
-/
namespace CatalogDdl.DeclaredOrder

/-- Each name once, in ascending order. -/
def sortNames (names : List String) : List String := names.eraseDups.mergeSort fun a b => a ≤ b

theorem mem_sortNames {names : List String} {name : String} :
    name ∈ sortNames names ↔ name ∈ names := by
  simp [sortNames, List.mem_eraseDups]

/-- Holds of a table that refers to no other table in `pending`. -/
def isReady (parts : List ForeignKeyPart) (pending : List String) (table : String) : Bool :=
  parts.all fun part =>
    part.table ≠ table || part.referencedTable = table || !pending.contains part.referencedTable

theorem length_erase_lt_of_find? {p : String → Bool} {names : List String} {name : String}
    (h : names.find? p = some name) : (names.erase name).length < names.length := by
  have hm := List.mem_of_find?_eq_some h
  have hl := List.length_erase_of_mem hm
  have hp := List.length_pos_of_mem hm
  omega

/-- Places the first ready table, again and again; tables that never get ready stay where they
are. -/
def settle (parts : List ForeignKeyPart) (pending : List String) : List String :=
  match _h : pending.find? (isReady parts pending) with
  | none => pending
  | some table => table :: settle parts (pending.erase table)
termination_by pending.length
decreasing_by exact length_erase_lt_of_find? _h

theorem settle_of_none {parts : List ForeignKeyPart} {pending : List String}
    (h : pending.find? (isReady parts pending) = none) : settle parts pending = pending := by
  rw [settle]; split <;> simp_all

theorem settle_of_some {parts : List ForeignKeyPart} {pending : List String} {table : String}
    (h : pending.find? (isReady parts pending) = some table) :
    settle parts pending = table :: settle parts (pending.erase table) := by
  rw [settle]; split <;> simp_all

@[simp] theorem settle_nil (parts : List ForeignKeyPart) :
    settle parts [] = [] := settle_of_none rfl

/-- Settling only moves tables. -/
theorem settle_perm (parts : List ForeignKeyPart) (pending : List String) :
    (settle parts pending).Perm pending := by
  fun_induction settle parts pending with
  | case1 => exact .refl _
  | case2 pending table h ih =>
    exact (ih.cons table).trans (List.perm_cons_erase (List.mem_of_find?_eq_some h)).symm

def declaredOrder (names : List String) (parts : List ForeignKeyPart) : List String :=
  settle parts (sortNames names)

theorem mem_declaredOrder {names : List String} {parts : List ForeignKeyPart} {name : String} :
    name ∈ declaredOrder names parts ↔ name ∈ names :=
  (settle_perm _ _).mem_iff.trans mem_sortNames

end CatalogDdl.DeclaredOrder
