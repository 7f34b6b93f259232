import CatalogDdl.Proofs.Schema.Build
import CatalogDdl.Proofs.Schema.Placed

/-!
# A table and one that it refers to

A referenced table comes before the table that refers to it, except that both may wait for a cycle.
Then they stand by name, whether they are on the cycle or only lead to it.
-/
namespace CatalogDdl.DeclaredOrder
open Relation

/-- The list can be cut so that one item is in front of the cut and the other one behind it. -/
def Earlier {α : Type} (order : List α) (first second : α) : Prop :=
  ∃ front back, order = front ++ back ∧ first ∈ front ∧ second ∈ back

section Earlier

variable {α : Type} {order front back : List α} {first second : α}

theorem Earlier.append_left (h : Earlier back first second) :
    Earlier (front ++ back) first second := by
  obtain ⟨before, after, rfl, hf, hs⟩ := h
  exact ⟨front ++ before, after, by rw [List.append_assoc], List.mem_append_right _ hf, hs⟩

theorem earlier_of_mem_before {before after : List α} (ho : order = before ++ second :: after)
    (hf : first ∈ before) : Earlier order first second :=
  ⟨before, second :: after, ho, hf, List.mem_cons_self⟩

/-- Of two items of a list one comes first. -/
theorem earlier_or_earlier (hf : first ∈ order) (hs : second ∈ order) (hne : first ≠ second) :
    Earlier order first second ∨ Earlier order second first := by
  obtain ⟨before, after, ho⟩ := List.append_of_mem hf
  rw [ho, List.mem_append, List.mem_cons] at hs
  rcases hs with hb | he | ha
  · exact .inr (earlier_of_mem_before ho hb)
  · exact absurd he.symm hne
  · exact .inl ⟨before ++ [first], after, by simp [ho], by simp, ha⟩

/-- Where nothing is listed twice, only one of two items comes first. -/
theorem Earlier.asymm (h : Earlier order first second) (hn : order.Nodup) :
    ¬ Earlier order second first := by
  rintro ⟨before, after, ho, hsb, hfa⟩
  obtain ⟨front, back, rfl, hff, hsb'⟩ := h
  have hd := (List.nodup_append.mp hn).2.2
  have hd' := (List.nodup_append.mp (ho ▸ hn)).2.2
  -- The shorter of the two fronts is in the longer one.
  rcases List.append_eq_append_iff.mp ho with ⟨middle, rfl, -⟩ | ⟨middle, rfl, -⟩
  · exact hd' _ (List.mem_append_left _ hff) _ hfa rfl
  · exact hd _ (List.mem_append_left _ hsb) _ hsb' rfl

theorem Earlier.lt [LinearOrder α] (h : Earlier order first second) (hs : order.Pairwise (· < ·)) :
    first < second := by
  obtain ⟨front, back, rfl, hf, hb⟩ := h
  exact (List.pairwise_append.mp hs).2.2 _ hf _ hb

end Earlier

/-- What refers to a table that reaches a cycle reaches it as well. -/
theorem ReachesCycle.of_step {R : String → String → Prop} {table next : String}
    (h : ReachesCycle R next) (hr : R table next) : ReachesCycle R table := by
  obtain ⟨other, hn, hc⟩ := h
  exact ⟨other, hn.head hr, hc⟩

namespace Settles

variable {parts : List ForeignKeyPart} {pending placed stuck : List String}
  {table referenced : String}

/-- A referenced table that reaches no cycle is placed before what refers to it. -/
theorem earlier_of_placed (h : Settles parts pending placed stuck) (hs : pending.Pairwise (· < ·))
    (he : Edge pending parts table referenced) (hr : referenced ∈ placed) :
    Earlier (placed ++ stuck) referenced table := by
  rcases List.mem_append.mp (h.perm.mem_iff.mpr he.1) with hp | hk
  · obtain ⟨before, after, rfl⟩ := List.append_of_mem hp
    have hb : referenced ∈ before := h.ordered hs before table after rfl referenced he
    exact earlier_of_mem_before (List.append_assoc before (table :: after) stuck) hb
  · exact ⟨placed, stuck, rfl, hr, hk⟩

/-- Two tables that never get ready stand by name. -/
theorem earlier_of_stuck (h : Settles parts pending placed stuck) (hs : pending.Pairwise (· < ·))
    {first second : String} (hf : first ∈ stuck) (hk : second ∈ stuck) (hlt : first < second) :
    Earlier (placed ++ stuck) first second := by
  have ha := hs.sublist h.sublist
  rcases earlier_or_earlier hf hk hlt.ne with he | he
  · exact he.append_left
  · exact absurd (he.lt ha) hlt.asymm

/-- A referenced table that is placed comes first; one that is stuck does if its name is less. -/
theorem earlier_iff (h : Settles parts pending placed stuck) (hs : pending.Pairwise (· < ·))
    (he : Edge pending parts table referenced) :
    Earlier (placed ++ stuck) referenced table ↔
      ¬ ReachesCycle (Edge pending parts) referenced ∨ referenced < table := by
  have hne : referenced ≠ table := by
    obtain ⟨-, -, part, -, -, -, hne⟩ := he
    exact hne
  by_cases hc : ReachesCycle (Edge pending parts) referenced
  · have hr : referenced ∈ stuck := (h.mem_stuck_iff hs).mpr ⟨he.2.1, hc⟩
    have ht : table ∈ stuck := (h.mem_stuck_iff hs).mpr ⟨he.1, hc.of_step he⟩
    have hn : (placed ++ stuck).Nodup := h.perm.nodup_iff.mpr (hs.imp ne_of_lt)
    simp only [hc, not_true_eq_false, false_or]
    constructor
    · intro hb
      by_contra hlt
      have hgt : table < referenced := lt_of_le_of_ne (not_lt.mp hlt) hne.symm
      exact (h.earlier_of_stuck hs ht hr hgt).asymm hn hb
    · exact h.earlier_of_stuck hs hr ht
  · have hp : referenced ∈ placed := by
      rcases List.mem_append.mp (h.perm.mem_iff.mpr he.2.1) with hp | hk
      · exact hp
      · exact absurd ((h.mem_stuck_iff hs).mp hk).2 hc
    exact iff_of_true (h.earlier_of_placed hs he hp) (.inl hc)

end Settles

variable {names : List String} {parts : List ForeignKeyPart}

theorem edge_of_mem {part : ForeignKeyPart} (hp : part ∈ parts) (ht : part.table ∈ names)
    (hr : part.referencedTable ∈ names) (hne : part.referencedTable ≠ part.table) :
    Edge names parts part.table part.referencedTable := ⟨ht, hr, part, hp, rfl, rfl, hne⟩

/-- A table from which no chain of references reaches a cycle comes after all that it refers to. In
general a referenced table comes before the table that refers to it if and only if it reaches no
cycle itself or has the lesser name. That the referring table is not on a cycle is not enough. -/
theorem referenced_first_iff {part : ForeignKeyPart} (hp : part ∈ parts) (ht : part.table ∈ names)
    (hr : part.referencedTable ∈ names) (hne : part.referencedTable ≠ part.table) :
    (¬ ReachesCycle (Edge names parts) part.table →
      Earlier (declaredOrder names parts) part.referencedTable part.table) ∧
    (Earlier (declaredOrder names parts) part.referencedTable part.table ↔
      ¬ ReachesCycle (Edge names parts) part.referencedTable ∨ part.referencedTable <
        part.table) := by
  have he := edge_of_mem hp ht hr hne
  have hi : Earlier (declaredOrder names parts) part.referencedTable part.table ↔
      ¬ ReachesCycle (Edge names parts) part.referencedTable ∨ part.referencedTable <
        part.table := by
    obtain ⟨placed, stuck, hk, hd⟩ := exists_settles parts (sortNames names)
    rw [← edge_sortNames] at he ⊢
    rw [declaredOrder, hd]
    exact hk.earlier_iff (sortNames_ascending names) he
  refine ⟨fun hn => hi.mpr (.inl fun hc => ?_), hi⟩
  exact hn (hc.of_step he)

def sampleNames : List String := ["Z", "Y", "X", "A"]

/-- A cycle of `X` and `Y`, and two tables outside it that refer to it. -/
def sampleCycle : List ForeignKeyPart :=
  [Catalog.sampleReference "K" "A" "X", Catalog.sampleReference "L" "X" "Y",
    Catalog.sampleReference "M" "Y" "X", Catalog.sampleReference "N" "Z" "Y"]

/-- `Z` waits for the cycle, but it comes after `Y` by name. -/
theorem referenced_first_sample :
    Catalog.sampleReference "N" "Z" "Y" ∈ sampleCycle ∧ "Z" ∈ sampleNames ∧
    "Y" ∈ sampleNames ∧ "Y" ≠ "Z" ∧
      Earlier (declaredOrder sampleNames sampleCycle) "Y" "Z" := by
  have hp : Catalog.sampleReference "N" "Z" "Y" ∈ sampleCycle := by decide
  have ht : "Z" ∈ sampleNames := by decide
  have hr : "Y" ∈ sampleNames := by decide
  have hlt : "Y" < "Z" := by decide
  exact ⟨hp, ht, hr, by decide, (referenced_first_iff hp ht hr (by decide)).2.mpr (.inr hlt)⟩

/-- No chain of references leads back to `A`, and yet it comes before `X`, to which it refers. -/
theorem referring_table_first :
    Catalog.sampleReference "K" "A" "X" ∈ sampleCycle ∧ "A" ∈ sampleNames ∧
    "X" ∈ sampleNames ∧ "X" ≠ "A" ∧
      ¬ TransGen (Edge sampleNames sampleCycle) "A" "A" ∧
      declaredOrder sampleNames sampleCycle = ["A", "X", "Y", "Z"] ∧
      ¬ Earlier (declaredOrder sampleNames sampleCycle) "X" "A" := by
  have ho : declaredOrder sampleNames sampleCycle = ["A", "X", "Y", "Z"] := by cbv
  have hc : ¬ TransGen (Edge sampleNames sampleCycle) "A" "A" := by
    intro h
    obtain ⟨other, -, -, -, part, hp, -, hr, -⟩ := TransGen.tail'_iff.mp h
    have hn : ∀ part ∈ sampleCycle, part.referencedTable ≠ "A" := by decide
    exact hn part hp hr
  have he : Earlier ["A", "X", "Y", "Z"] "A" "X" :=
      ⟨["A"], ["X", "Y", "Z"], rfl, by decide, by decide⟩
  refine ⟨by decide, by decide, by decide, by decide, hc, ho, ?_⟩
  rw [ho]
  exact he.asymm (by decide)

end CatalogDdl.DeclaredOrder
