import CatalogDdl.Proofs.Schema.Sorted
import CatalogDdl.Schema.DeclaredOrder
import Mathlib.Data.Fintype.Card
import Mathlib.Data.Set.Finite.Basic
import Mathlib.Logic.Relation
import Mathlib.Order.WellFounded

/-!
# References and the declared order

A table refers to another one if a foreign key part says so. A table from which no chain of
references reaches a cycle is orderable, and an orderable table stands after every table it refers
to, wherever the cycles of the other tables are. A table that never gets ready is one that is not
orderable.
-/
namespace CatalogDdl.DeclaredOrder
open Relation

/-- One table refers to another one. A reference of a table to itself does not count. -/
def Refers (parts : List ForeignKeyPart) (table referenced : String) : Prop :=
  ∃ part ∈ parts, part.table = table ∧ part.referencedTable = referenced ∧ referenced ≠ table

/-- No chain of references that starts at the table reaches a cycle. -/
def Orderable (parts : List ForeignKeyPart) (table : String) : Prop :=
  ∀ other, ReflTransGen (Refers parts) table other → ¬ TransGen (Refers parts) other other

/-- Without a cycle every table is orderable. -/
theorem orderable_of_acyclic {parts : List ForeignKeyPart}
    (h : ∀ table, ¬ TransGen (Refers parts) table table) (table : String) :
    Orderable parts table := fun other _ => h other

/-- A table is ready if it refers to no table that is pending. -/
theorem isReady_iff {parts : List ForeignKeyPart} {pending : List String} {table : String} :
    isReady parts pending table = true ↔ ∀ referenced, Refers parts table referenced →
    referenced ∉ pending := by
  simp only [isReady, List.all_eq_true, Bool.or_eq_true, decide_eq_true_eq, Bool.not_eq_true',
    List.contains_eq_mem, decide_eq_false_iff_not]
  constructor
  · rintro h _ ⟨part, hp, rfl, rfl, hne⟩
    rcases h part hp with (h | h) | h
    · exact absurd rfl h
    · exact absurd h hne
    · exact h
  · intro h part hp
    by_cases ht : part.table = table
    · by_cases hr : part.referencedTable = table
      · exact .inl (.inr hr)
      · exact .inr (h _ ⟨part, hp, ht, rfl, hr⟩)
    · exact .inl (.inl ht)

/-- In a finite list whose members all have a successor in it, a chain from each member reaches a
cycle. -/
theorem exists_cycle {α : Type} {R : α → α → Prop} {items : List α}
    (h : ∀ x ∈ items, ∃ y ∈ items, R x y) {x : α} (hx : x ∈ items) :
    ∃ y, ReflTransGen R x y ∧ TransGen R y y := by
  by_contra hc
  push Not at hc
  -- Were there no cycle, the members that `x` reaches would be well-founded under `R`.
  let Reached := {y // y ∈ items ∧ ReflTransGen R x y}
  have : Finite Reached :=
      (items.finite_toSet.subset fun y hy => hy.1 : {y | y ∈ items ∧ ReflTransGen R x y}.Finite)
  let later : Reached → Reached → Prop := fun a b => TransGen R b.1 a.1
  have : IsTrans Reached later := ⟨fun _ _ _ hab hbc => hbc.trans hab⟩
  have : Std.Irrefl later := ⟨fun a => hc a.1 a.2.2⟩
  have hw : WellFounded later := Finite.wellFounded_of_trans_of_irrefl later
  obtain ⟨last, -, hl⟩ := hw.has_min Set.univ ⟨⟨x, hx, .refl⟩, trivial⟩
  obtain ⟨next, hn, hr⟩ := h last.1 last.2.1
  exact hl ⟨next, hn, last.2.2.tail hr⟩ trivial (.single hr)

/-- Where no pending table is ready, each refers to another one that is pending. -/
theorem exists_refers_of_stuck {parts : List ForeignKeyPart} {pending : List String}
    (h : pending.find? (isReady parts pending) = none) {table : String} (ht : table ∈ pending) :
    ∃ referenced ∈ pending, Refers parts table referenced := by
  have hn := List.find?_eq_none.mp h table ht
  rw [isReady_iff] at hn
  push Not at hn
  obtain ⟨referenced, hr, hm⟩ := hn
  exact ⟨referenced, hm, hr⟩

/-- Tables of which none is ready are not orderable. -/
theorem not_orderable_of_stuck {parts : List ForeignKeyPart} {pending : List String}
    (h : pending.find? (isReady parts pending) = none) {table : String} (ht : table ∈ pending) :
    ¬ Orderable parts table := by
  obtain ⟨other, hr, hc⟩ := exists_cycle (fun _ => exists_refers_of_stuck h) ht
  exact fun ho => ho other hr hc

/-- No orderable table stands before a table it refers to. -/
theorem settle_pairwise (parts : List ForeignKeyPart) (pending : List String) :
    (settle parts pending).Pairwise fun first second => Orderable parts first →
    ¬ Refers parts first second := by
  fun_induction settle parts pending with
  | case1 pending h =>
    exact List.pairwise_of_forall_mem_list fun first hf _ _ ho =>
      absurd ho (not_orderable_of_stuck h hf)
  | case2 pending table h ih =>
    refine List.pairwise_cons.mpr ⟨fun second hs _ hr => ?_, ih⟩
    have hp : second ∈ pending := List.mem_of_mem_erase ((settle_perm parts _).mem_iff.mp hs)
    exact isReady_iff.mp (List.find?_some h) second hr hp

theorem nodup_sortNames (names : List String) : (sortNames names).Nodup :=
  (List.mergeSort_perm _ _).nodup_iff.mpr (nodup_eraseDups names)

theorem sortNames_sorted (names : List String) : (sortNames names).Pairwise (· ≤ ·) :=
  pairwise_mergeSort_key id names.eraseDups

/-- Sorting only looks at which names there are. -/
theorem sortNames_congr {names others : List String} (h : ∀ name, name ∈ names ↔ name ∈ others) :
    sortNames names = sortNames others := by
  have hp : (sortNames names).Perm (sortNames others) := by
    refine (List.perm_ext_iff_of_nodup (nodup_sortNames names) (nodup_sortNames others)).mpr
      fun name => ?_
    rw [mem_sortNames, mem_sortNames, h]
  exact hp.eq_of_pairwise (fun _ _ _ _ => String.le_antisymm) (sortNames_sorted names)
    (sortNames_sorted others)

theorem nodup_declaredOrder (names : List String) (parts : List ForeignKeyPart) :
    (declaredOrder names parts).Nodup :=
  (settle_perm _ _).nodup_iff.mpr (nodup_sortNames names)

theorem declaredOrder_pairwise (names : List String) (parts : List ForeignKeyPart) :
    (declaredOrder names parts).Pairwise fun first second => Orderable parts first →
    ¬ Refers parts first second :=
  settle_pairwise parts _

end CatalogDdl.DeclaredOrder
