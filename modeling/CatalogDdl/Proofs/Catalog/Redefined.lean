import CatalogDdl.Catalog.Basic
import CatalogDdl.Proofs.Catalog.Decoded
import CatalogDdl.Proofs.Text.Lined

/-!
# Routines that are defined anew

Routines are listed by kind and defined anew by kind. So a routine under a kind is of that kind, and
the last definition of a routine is the one that the catalog has. Nothing else in a catalog changes.
-/
namespace CatalogDdl
open Text

namespace Routine

variable {new routine : Routine} {routines : List Routine}

/-- A routine that is defined anew among routines of its kind is one of them. -/
theorem mem_define (h : ∀ old ∈ routines, old.kind = new.kind) : new ∈ new.define routines := by
  induction routines with
  | nil => simp
  | cons old rest ih =>
    rw [List.forall_mem_cons] at h
    rw [define]
    split
    · next hn =>
      obtain ⟨kind, name, definition⟩ := old
      cases new
      simp_all
    · exact List.mem_cons_of_mem _ (ih h.2)

/-- Routines of other names stay. -/
theorem mem_define_of_ne (hr : routine ∈ routines) (hn : routine.name ≠ new.name) :
    routine ∈ new.define routines := by
  induction routines with
  | nil => cases hr
  | cons old rest ih =>
    rw [define]
    rcases List.mem_cons.mp hr with rfl | hr
    · simp [hn]
    · split
      · exact List.mem_cons_of_mem _ hr
      · exact List.mem_cons_of_mem _ (ih hr)

/-- Every routine has the kind and the name that it had before, or those of the new one. -/
theorem exists_of_mem_define (h : routine ∈ new.define routines) :
    ∃ old ∈ new :: routines, routine.kind = old.kind ∧ routine.name = old.name := by
  induction routines with
  | nil => exact ⟨new, by simp, by simp_all, by simp_all⟩
  | cons old rest ih =>
    rw [define] at h
    split at h
    · rcases List.mem_cons.mp h with rfl | h
      · exact ⟨old, by simp, rfl, rfl⟩
      · exact ⟨routine, by simp [h], rfl, rfl⟩
    · rcases List.mem_cons.mp h with rfl | h
      · exact ⟨routine, by simp, rfl, rfl⟩
      · obtain ⟨other, ho, he⟩ := ih h
        refine ⟨other, ?_, he⟩
        rcases List.mem_cons.mp ho with rfl | ho
        · exact List.mem_cons_self
        · simp [ho]

end Routine

namespace Catalog

variable {c : Catalog}

def ListedByKind (c : Catalog) : Prop := ∀ kind, ∀ routine ∈ c.routines kind, routine.kind = kind

theorem routines_define (c : Catalog) (new : Routine) (kind : Routine.Kind) :
    (c.define new).routines kind =
      if new.kind = kind then new.define (c.routines kind) else c.routines kind := by
  rw [define]
  cases hn : new.kind <;> cases kind <;> simp [routines]

theorem ListedByKind.define (h : c.ListedByKind) (new : Routine) : (c.define new).ListedByKind := by
  intro kind routine hr
  rw [routines_define] at hr
  split at hr
  · next hk =>
    obtain ⟨old, ho, he, -⟩ := Routine.exists_of_mem_define hr
    rcases List.mem_cons.mp ho with rfl | ho
    · exact he.trans hk
    · exact he.trans (h kind old ho)
  · exact h kind routine hr

theorem ListedByKind.redefine (h : c.ListedByKind) (definitions : List Routine) :
    (c.redefine definitions).ListedByKind := by
  induction definitions generalizing c with
  | nil => exact h
  | cons new rest ih => exact ih (h.define new)

/-- A routine keeps its definition while others are defined anew. -/
theorem mem_redefine {routine : Routine} (hr : routine ∈ c.routines routine.kind)
    {later : List Routine} (hl : ∀ new ∈ later, new.kind = routine.kind → new.name ≠ routine.name) :
    routine ∈ (c.redefine later).routines routine.kind := by
  induction later generalizing c with
  | nil => exact hr
  | cons new rest ih =>
    rw [List.forall_mem_cons] at hl
    refine ih ?_ hl.2
    rw [routines_define]
    split
    · next hk => exact Routine.mem_define_of_ne hr (hl.1 hk).symm
    · exact hr

/-- The last definition of a routine holds. -/
theorem mem_of_last_definition (h : c.ListedByKind) (earlier : List Routine) {new : Routine}
    {later : List Routine} (hl : ∀ other ∈ later, other.kind = new.kind → other.name ≠ new.name) :
    new ∈ (c.redefine (earlier ++ new :: later)).routines new.kind := by
  rw [redefine_append, redefine_cons]
  refine mem_redefine ?_ hl
  rw [routines_define, if_pos rfl]
  exact Routine.mem_define (h.redefine earlier new.kind)

/-- No text of the catalog has a line feed, but for the definitions of routines. -/
structure OneLine (c : Catalog) : Prop where
  columns : ∀ column ∈ c.columns, ∀ text ∈ column.texts, Unbroken text
  primaryKeys : ∀ part ∈ c.primaryKeys, ∀ text ∈ part.texts, Unbroken text
  foreignKeys : ∀ part ∈ c.foreignKeys, ∀ text ∈ part.texts, Unbroken text
  indexes : ∀ part ∈ c.indexes, ∀ text ∈ part.texts, Unbroken text
  routines : ∀ kind, ∀ routine ∈ c.routines kind, Unbroken routine.name

theorem OneLine.define (h : c.OneLine) {new : Routine} (hn : Unbroken new.name) :
    (c.define new).OneLine := by
  have hr : ∀ kind, ∀ routine ∈ (c.define new).routines kind, Unbroken routine.name := by
    intro kind routine hr
    rw [routines_define] at hr
    split at hr
    · obtain ⟨old, ho, -, he⟩ := Routine.exists_of_mem_define hr
      rw [he]
      rcases List.mem_cons.mp ho with rfl | ho
      · exact hn
      · exact h.routines kind old ho
    · exact h.routines kind routine hr
  rw [Catalog.define] at hr ⊢
  cases hk : new.kind with
  | procedure =>
    exact ⟨h.columns, h.primaryKeys, h.foreignKeys, h.indexes, by simpa only [hk] using hr⟩
  | view => exact ⟨h.columns, h.primaryKeys, h.foreignKeys, h.indexes, by simpa only [hk] using hr⟩

theorem OneLine.redefine (h : c.OneLine) {definitions : List Routine}
    (hd : ∀ new ∈ definitions, Unbroken new.name) :
    (c.redefine definitions).OneLine := by
  induction definitions generalizing c with
  | nil => exact h
  | cons new rest ih =>
    rw [List.forall_mem_cons] at hd
    exact ih (h.define hd.1) hd.2

end Catalog
end CatalogDdl
