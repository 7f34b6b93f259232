/-!
# Groups of one name

Items that share a name form a group. Groups stand in the order in which their names first occur,
and the items of a group in their order among all items.
-/
namespace CatalogDdl

variable {α : Type}

/-- The items of one name, of which there is at least one. -/
structure NameGroup (α : Type) where
  first : α
  rest : List α
  deriving DecidableEq, Repr

namespace NameGroup

def items (group : NameGroup α) : List α := group.first :: group.rest

@[simp] theorem items_mk (first : α) (rest : List α) : items ⟨first, rest⟩ = first :: rest := rfl

/-- The group that a list makes, if it is not empty. -/
def ofList? : List α → Option (NameGroup α)
  | [] => none
  | first :: rest => some ⟨first, rest⟩

@[simp] theorem ofList?_nil : ofList? ([] : List α) = none := rfl

@[simp] theorem ofList?_cons (first : α) (rest : List α) :
    ofList? (first :: rest) = some ⟨first, rest⟩ := rfl

end NameGroup

def groupsBy (name : α → String) (items : List α) : List (NameGroup α) :=
  (items.map name).eraseDups.filterMap fun shared =>
    NameGroup.ofList? (items.filter fun item => name item = shared)

@[simp] theorem groupsBy_nil (name : α → String) : groupsBy name ([] : List α) = [] := rfl

end CatalogDdl
