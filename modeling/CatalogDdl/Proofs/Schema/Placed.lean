import CatalogDdl.Proofs.Schema.DeclaredOrder
import Mathlib.Data.List.Find
import Mathlib.Data.String.Basic
import Mathlib.Order.Bounds.Defs

/-!
# Placed tables and cyclic tables

The declared order begins with the tables from which no chain of references reaches a cycle. Each of
them has the least name of those that may come next, so without a cycle the order is the first of
all orders that put referenced tables in front. The other tables follow by name.
-/
namespace CatalogDdl.DeclaredOrder
open Relation

/-- An edge between named tables: one of them refers to another one. -/
def Edge (names : List String) (parts : List ForeignKeyPart) (table referenced : String) : Prop :=
  table ∈ names ∧ referenced ∈ names ∧ Refers parts table referenced

section Edge

variable {names others : List String} {parts rest : List ForeignKeyPart} {table referenced : String}

theorem edge_congr (hn : ∀ name, name ∈ names ↔ name ∈ others)
    (hp : ∀ part, part ∈ parts ↔ part ∈ rest) :
    Edge names parts table referenced ↔ Edge others rest table referenced := by
  simp only [Edge, Refers, hn, hp]

/-- Without a table only its own edges are gone. -/
theorem edge_erase_iff (hn : names.Nodup) {first : String} :
    Edge (names.erase first) parts table referenced ↔
      table ≠ first ∧ referenced ≠ first ∧ Edge names parts table referenced := by
  simp only [Edge, hn.mem_erase_iff]
  constructor
  · rintro ⟨⟨ht, htm⟩, ⟨hr, hrm⟩, h⟩
    exact ⟨ht, hr, htm, hrm, h⟩
  · rintro ⟨ht, hr, htm, hrm, h⟩
    exact ⟨⟨ht, htm⟩, ⟨hr, hrm⟩, h⟩

/-- A pending table is ready if no edge between pending tables leads from it. -/
theorem isReady_iff_edge (ht : table ∈ names) :
    isReady parts names table = true ↔ ∀ referenced, ¬ Edge names parts table referenced := by
  rw [isReady_iff]
  constructor
  · rintro h r ⟨-, hm, hr⟩
    exact h r hr hm
  · intro h r hr hm
    exact h r ⟨ht, hm, hr⟩

/-- A part that adds no edge: it refers to its own table, an end of it is not named, or another part
has the same ends. -/
def Idle (names : List String) (others : List ForeignKeyPart) (part : ForeignKeyPart) : Prop :=
  part.referencedTable = part.table ∨ part.table ∉ names ∨ part.referencedTable ∉ names ∨
    ∃ other ∈ others, other.table = part.table ∧ other.referencedTable = part.referencedTable

/-- Without an idle part the edges are the same. -/
theorem edge_of_idle {before after : List ForeignKeyPart} {part : ForeignKeyPart}
    (h : Idle names (before ++ after) part) :
    Edge names (before ++ after) table referenced ↔
      Edge names (before ++ part :: after) table referenced := by
  have hs {other : ForeignKeyPart} : other ∈ before ++ part :: after ↔ other = part ∨
      other ∈ before ++ after := by
    simp [or_left_comm]
  constructor
  · rintro ⟨ht, hr, other, ho, hrest⟩
    exact ⟨ht, hr, other, hs.mpr (.inr ho), hrest⟩
  · rintro ⟨ht, hr, other, ho, rfl, rfl, hne⟩
    rcases hs.mp ho with rfl | ho
    · rcases h with he | ht' | hr' | ⟨twin, hm, hto, htr⟩
      · exact absurd he hne
      · exact absurd ht ht'
      · exact absurd hr hr'
      · exact ⟨ht, hr, twin, hm, hto, htr, hne⟩
    · exact ⟨ht, hr, other, ho, rfl, rfl, hne⟩

/-- Settling only looks at edges. -/
theorem settle_congr
    (h : ∀ table referenced, Edge names parts table referenced ↔ Edge names rest table referenced)
    (hn : names.Nodup) : settle parts names = settle rest names := by
  have hf (pending : List String) (he : ∀ t r, Edge pending parts t r ↔ Edge pending rest t r) :
      pending.find? (isReady parts pending) = pending.find? (isReady rest pending) := by
    refine List.find?_congr fun t ht => ?_
    rw [Bool.eq_iff_iff, isReady_iff_edge ht, isReady_iff_edge ht]
    simp only [he]
  fun_induction settle parts names with
  | case1 pending hs =>
    rw [hf pending h] at hs
    rw [settle_of_none hs]
  | case2 pending first hs ih =>
    rw [hf pending h] at hs
    rw [settle_of_some hs, ih _ (hn.erase first)]
    intro t r
    rw [edge_erase_iff hn, edge_erase_iff hn, h]

end Edge

/-- Each table has in front of it all those that an edge leads to from it. -/
def Ordered (R : String → String → Prop) (order : List String) : Prop :=
  ∀ before table after, order = before ++ table :: after → ∀ referenced, R table referenced →
    referenced ∈ before

theorem Ordered.of_append {R : String → String → Prop} {order rest : List String}
    (h : Ordered R (order ++ rest)) :
    Ordered R order := by
  intro before table after ho
  exact h before table (after ++ rest) (by simp [ho])

/-- The tables that may come next after those in `before`. -/
def Next (names : List String) (parts : List ForeignKeyPart) (before : List String) : Set String :=
  {table | table ∈ names ∧ table ∉ before ∧
    ∀ referenced, Edge names parts table referenced → referenced ∈ before}

/-- All named tables, each once and behind those that it refers to. -/
structure Topological (names : List String) (parts : List ForeignKeyPart) (order : List String) :
    Prop where
  nodup : order.Nodup
  mem_iff : ∀ name, name ∈ order ↔ name ∈ names
  ordered : Ordered (Edge names parts) order

section Next

variable {names others before : List String} {parts : List ForeignKeyPart} {table : String}

theorem mem_next : table ∈ Next names parts before ↔
    table ∈ names ∧ table ∉ before ∧ ∀ referenced, Edge names parts table referenced →
      referenced ∈ before := Iff.rfl

theorem next_congr (h : ∀ name, name ∈ names ↔ name ∈ others) :
    Next names parts before = Next others parts before := by
  ext table
  simp only [mem_next, h, edge_congr h fun _ => Iff.rfl]

theorem mem_next_nil :
    table ∈ Next names parts [] ↔ table ∈ names ∧ isReady parts names table = true := by
  simp only [mem_next, List.not_mem_nil, not_false_eq_true, true_and, imp_false]
  exact and_congr_right fun ht => (isReady_iff_edge ht).symm

/-- Once a table is placed, the others are pending. -/
theorem next_cons (hn : names.Nodup) (first : String) :
    Next names parts (first :: before) = Next (names.erase first) parts before := by
  ext table
  simp only [mem_next, hn.mem_erase_iff, edge_erase_iff hn, List.mem_cons, not_or]
  constructor
  · rintro ⟨ht, ⟨hne, hb⟩, hr⟩
    exact ⟨⟨hne, ht⟩, hb, fun r he => (hr r he.2.2).resolve_left he.2.1⟩
  · rintro ⟨⟨hne, ht⟩, hb, hr⟩
    refine ⟨ht, ⟨hne, hb⟩, fun r he => ?_⟩
    by_cases hf : r = first
    · exact .inl hf
    · exact .inr (hr r ⟨hne, hf, he⟩)

/-- The first of sorted names with a property is the least one. -/
theorem le_of_find?_eq_some (hs : names.Pairwise (· < ·)) {p : String → Bool} {other : String}
    (h : names.find? p = some table) (ho : other ∈ names) (hp : p other = true) :
    table ≤ other := by
  obtain ⟨-, early, late, rfl, he⟩ := List.find?_eq_some_iff_append.mp h
  rw [List.pairwise_append, List.pairwise_cons] at hs
  rcases List.mem_append.mp ho with hm | hm
  · have hf := he other hm
    simp [hp] at hf
  · rcases List.mem_cons.mp hm with rfl | hm
    · exact le_refl other
    · exact le_of_lt (hs.2.1.1 other hm)

end Next

def ReachesCycle (R : String → String → Prop) (table : String) : Prop :=
  ∃ other, ReflTransGen R table other ∧ TransGen R other other

/-- The first step towards a cycle, or on it, leads to a table that reaches one. -/
theorem ReachesCycle.step {R : String → String → Prop} {table : String} (h : ReachesCycle R table) :
    ∃ next, R table next ∧ ReachesCycle R next := by
  obtain ⟨other, hr, hc⟩ := h
  rcases hr.cases_head with rfl | ⟨next, hn, hr⟩
  · obtain ⟨next, hn, hr⟩ := TransGen.head'_iff.mp hc
    exact ⟨next, hn, table, hr, hc⟩
  · exact ⟨next, hn, other, hr, hc⟩

/-- A table that stands behind all it leads to reaches no cycle. -/
theorem Ordered.not_reachesCycle {R : String → String → Prop} {order : List String}
    (h : Ordered R order) {table : String} (ht : table ∈ order) : ¬ ReachesCycle R table := by
  induction order using List.reverseRecOn generalizing table with
  | nil => cases ht
  | append_singleton front last ih =>
    have hf : Ordered R front := h.of_append
    rcases List.mem_append.mp ht with hm | hm
    · exact ih hf hm
    · intro hc
      obtain ⟨next, hn, hc⟩ := hc.step
      have hl : table = last := List.mem_singleton.mp hm
      exact ih hf (h front last [] rfl next (hl ▸ hn)) hc

/-- From `pending` the tables `placed` are taken, one after the other, until none of `stuck` is
ready. -/
inductive Settles (parts : List ForeignKeyPart) : (pending placed stuck : List String) → Prop where
  | stop {pending : List String} (h : pending.find? (isReady parts pending) = none) :
      Settles parts pending [] pending
  | place {pending placed stuck : List String} {table : String}
    (h : pending.find? (isReady parts pending) = some table)
      (hr : Settles parts (pending.erase table) placed stuck) :
    Settles parts pending (table :: placed) stuck

theorem exists_settles (parts : List ForeignKeyPart) (pending : List String) :
    ∃ placed stuck, Settles parts pending placed stuck ∧ settle parts pending =
      placed ++ stuck := by
  fun_induction settle parts pending with
  | case1 pending h => exact ⟨[], pending, .stop h, rfl⟩
  | case2 pending table h ih =>
    obtain ⟨placed, stuck, hs, he⟩ := ih
    exact ⟨table :: placed, stuck, .place h hs, by rw [he, List.cons_append]⟩

namespace Settles

variable {parts : List ForeignKeyPart} {pending placed stuck : List String}

theorem perm (h : Settles parts pending placed stuck) : (placed ++ stuck).Perm pending := by
  induction h with
  | stop => exact .refl _
  | place h _ ih =>
    exact (ih.cons _).trans (List.perm_cons_erase (List.mem_of_find?_eq_some h)).symm

theorem sublist (h : Settles parts pending placed stuck) : stuck.Sublist pending := by
  induction h with
  | stop => exact .refl _
  | place _ _ ih => exact ih.trans List.erase_sublist

theorem find?_stuck (h : Settles parts pending placed stuck) :
    stuck.find? (isReady parts stuck) = none := by
  induction h with
  | stop h => exact h
  | place _ _ ih => exact ih

/-- Each placed table is the least one that may come next. -/
theorem isLeast (h : Settles parts pending placed stuck) (hs : pending.Pairwise (· < ·))
    {before after : List String} {table : String} (hp : placed = before ++ table :: after) :
    IsLeast (Next pending parts before) table := by
  induction h generalizing before with
  | stop => simp at hp
  | @place pending _ _ first h _ ih =>
    cases before with
    | nil =>
      obtain ⟨rfl, -⟩ := List.cons.inj hp
      refine ⟨mem_next_nil.mpr ⟨List.mem_of_find?_eq_some h, List.find?_some h⟩, fun other ho => ?_⟩
      obtain ⟨hm, hr⟩ := mem_next_nil.mp ho
      exact le_of_find?_eq_some hs h hm hr
    | cons head before =>
      obtain ⟨rfl, ht⟩ := List.cons.inj hp
      rw [next_cons (hs.imp ne_of_lt)]
      exact ih (hs.sublist List.erase_sublist) ht

theorem ordered (h : Settles parts pending placed stuck) (hs : pending.Pairwise (· < ·)) :
    Ordered (Edge pending parts) placed := by
  intro before table after hp
  exact (h.isLeast hs hp).1.2.2

/-- From a table that never gets ready an edge leads to another one. -/
theorem exists_edge (h : Settles parts pending placed stuck) {table : String} (ht : table ∈ stuck) :
    ∃ referenced ∈ stuck, Edge pending parts table referenced := by
  obtain ⟨referenced, hm, hr⟩ := exists_refers_of_stuck h.find?_stuck ht
  exact ⟨referenced, hm, h.sublist.subset ht, h.sublist.subset hm, hr⟩

/-- Stuck are the tables from which a chain reaches a cycle. -/
theorem mem_stuck_iff (h : Settles parts pending placed stuck) (hs : pending.Pairwise (· < ·))
    {table : String} :
    table ∈ stuck ↔ table ∈ pending ∧ ReachesCycle (Edge pending parts) table := by
  constructor
  · intro ht
    exact ⟨h.sublist.subset ht, exists_cycle (fun _ => h.exists_edge) ht⟩
  · rintro ⟨hm, hc⟩
    rcases List.mem_append.mp (h.perm.mem_iff.mpr hm) with hp | hk
    · exact absurd hc ((h.ordered hs).not_reachesCycle hp)
    · exact hk

/-- Of the orders that put referenced tables in front, the one in which tables are placed is the
first. -/
theorem eq_or_lex (h : Settles parts pending placed []) (hs : pending.Pairwise (· < ·))
    {order : List String} (hp : order.Perm pending) (ho : Ordered (Edge pending parts) order) :
    placed = order ∨ List.Lex (· < ·) placed order := by
  generalize hk : ([] : List String) = stuck at h
  induction h generalizing order with
  | stop =>
    subst hk
    exact .inl hp.eq_nil.symm
  | @place pending _ _ table h _ ih =>
    have hn : pending.Nodup := hs.imp ne_of_lt
    cases order with
    | nil =>
      have hm := List.mem_of_find?_eq_some h
      rw [hp.symm.eq_nil] at hm
      cases hm
    | cons first rest =>
      have hf : first ∈ pending := hp.subset List.mem_cons_self
      have hr : isReady parts pending first = true :=
        (isReady_iff_edge hf).mpr fun r he => List.not_mem_nil (ho [] first rest rfl r he)
      rcases lt_or_eq_of_le (le_of_find?_eq_some hs h hf hr) with hlt | rfl
      · exact .inr (.rel hlt)
      · have ht : Ordered (Edge (pending.erase table) parts) rest := by
          intro before t after hb r he
          obtain ⟨-, hne, he⟩ := (edge_erase_iff hn).mp he
          have hm := ho (table :: before) t after (by rw [hb, List.cons_append]) r he
          exact (List.mem_cons.mp hm).resolve_left hne
        have hpr : rest.Perm (pending.erase table) := (List.cons_perm_iff_perm_erase.mp hp).2
        rcases ih (hs.sublist List.erase_sublist) hpr ht hk with rfl | hl
        · exact .inl rfl
        · exact .inr (.cons hl)

end Settles

theorem sortNames_ascending (names : List String) : (sortNames names).Pairwise (· < ·) :=
  ((sortNames_sorted names).and (nodup_sortNames names)).imp fun h => lt_of_le_of_ne h.1 h.2

theorem edge_sortNames {names : List String} {parts : List ForeignKeyPart} :
    Edge (sortNames names) parts = Edge names parts := by
  funext table referenced
  exact propext (edge_congr (fun _ => mem_sortNames) fun _ => Iff.rfl)

theorem next_sortNames {names before : List String} {parts : List ForeignKeyPart} :
    Next (sortNames names) parts before = Next names parts before :=
      next_congr fun _ => mem_sortNames

/-- The declared order only looks at names and edges. -/
theorem declaredOrder_congr {names others : List String} {parts rest : List ForeignKeyPart}
    (hn : ∀ name, name ∈ names ↔ name ∈ others)
    (he : ∀ table referenced, Edge names parts table referenced ↔
      Edge names rest table referenced) :
    declaredOrder names parts = declaredOrder others rest := by
  rw [declaredOrder, declaredOrder, ← sortNames_congr hn]
  refine settle_congr (fun table referenced => ?_) (nodup_sortNames names)
  rw [edge_sortNames, edge_sortNames, he]

/-- Without a cycle all tables are placed, and no order that puts referenced tables in front comes
before this one. -/
theorem declaredOrder_of_acyclic {names : List String} {parts : List ForeignKeyPart}
    (h : ∀ table, ¬ TransGen (Edge names parts) table table) :
    Topological names parts (declaredOrder names parts) ∧ ∀ order, Topological names parts order →
      declaredOrder names parts = order ∨ List.Lex (· < ·) (declaredOrder names parts) order := by
  have hs := sortNames_ascending names
  obtain ⟨placed, stuck, hk, he⟩ := exists_settles parts (sortNames names)
  have hn : stuck = [] := by
    refine List.eq_nil_iff_forall_not_mem.mpr fun table ht => ?_
    obtain ⟨-, other, -, hc⟩ := (hk.mem_stuck_iff hs).mp ht
    rw [edge_sortNames] at hc
    exact h other hc
  subst hn
  have hd : declaredOrder names parts = placed := by rw [declaredOrder, he, List.append_nil]
  have ho := hk.ordered hs
  rw [edge_sortNames] at ho
  refine ⟨⟨nodup_declaredOrder _ _, fun _ => mem_declaredOrder, hd ▸ ho⟩, fun order ht => ?_⟩
  rw [hd]
  refine hk.eq_or_lex hs ?_ (by rw [edge_sortNames]; exact ht.ordered)
  refine (List.perm_ext_iff_of_nodup ht.nodup (nodup_sortNames names)).mpr fun name => ?_
  rw [ht.mem_iff, mem_sortNames]

/-- The declared order has each name once. It begins with the tables that reach no cycle, each the
least of those that may come next, and ends with the tables that reach one, in ascending order.
Without a cycle it is the first of all orders that put referenced tables in front. A part that adds
no edge makes no difference to it. -/
theorem declaredOrder_places_least (names : List String) (parts : List ForeignKeyPart) :
    (declaredOrder names parts).Nodup ∧
    (∀ name, name ∈ declaredOrder names parts ↔ name ∈ names) ∧
    (∃ placed cyclic, declaredOrder names parts = placed ++ cyclic ∧
      (∀ table, table ∈ cyclic ↔ table ∈ names ∧ ReachesCycle (Edge names parts) table) ∧
      cyclic.Pairwise (· < ·) ∧
      (∀ table, table ∈ placed ↔ table ∈ names ∧ ¬ ReachesCycle (Edge names parts) table) ∧
      ∀ before table after, placed = before ++ table :: after →
      IsLeast (Next names parts before) table) ∧
    ((∀ table, ¬ TransGen (Edge names parts) table table) →
      Topological names parts (declaredOrder names parts) ∧ ∀ order, Topological names parts order →
        declaredOrder names parts = order ∨ List.Lex (· < ·) (declaredOrder names parts) order) ∧
    ∀ before part after, parts = before ++ part :: after → Idle names (before ++ after) part →
      declaredOrder names (before ++ after) = declaredOrder names parts := by
  have hs := sortNames_ascending names
  refine ⟨nodup_declaredOrder names parts, fun _ => mem_declaredOrder, ?_,
    declaredOrder_of_acyclic, ?_⟩
  · obtain ⟨placed, cyclic, hk, he⟩ := exists_settles parts (sortNames names)
    have hc (table : String) : table ∈ cyclic ↔ table ∈ names ∧
        ReachesCycle (Edge names parts) table := by
      rw [hk.mem_stuck_iff hs, mem_sortNames, edge_sortNames]
    refine ⟨placed, cyclic, he, hc, hs.sublist hk.sublist, fun table => ?_,
      fun before table after hp => ?_⟩
    · have hd : (placed ++ cyclic).Nodup := hk.perm.nodup_iff.mpr (nodup_sortNames names)
      have hm : table ∈ names ↔ table ∈ placed ∨ table ∈ cyclic := by
        rw [← List.mem_append, hk.perm.mem_iff, mem_sortNames]
      have hn : table ∈ placed → table ∉ cyclic :=
          fun hp hq => (List.nodup_append.mp hd).2.2 _ hp _ hq rfl
      constructor
      · intro hp
        exact ⟨hm.mpr (.inl hp), fun hr => hn hp ((hc table).mpr ⟨hm.mpr (.inl hp), hr⟩)⟩
      · rintro ⟨ht, hr⟩
        exact (hm.mp ht).resolve_right fun hq => hr ((hc table).mp hq).2
    · rw [← next_sortNames]
      exact hk.isLeast hs hp
  · rintro before part after rfl hi
    exact declaredOrder_congr (fun _ => Iff.rfl) fun _ _ => edge_of_idle hi

end CatalogDdl.DeclaredOrder
