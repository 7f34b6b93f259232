import CatalogDdl.Proofs.Schema.Group

/-!
# Sorting by a key

A sorted list ascends in its key, and the items of one key stand in it in their order. Only one list
does both, so items with distinct keys are sorted to the same list in whatever order they come.
-/
namespace CatalogDdl

variable {α κ : Type}

/-- Where no two items have one key, a rearrangement keeps what there is of each key. -/
theorem filter_eq_of_perm [DecidableEq κ] {key : α → κ} {items others : List α}
    (hp : items.Perm others) (hn : (items.map key).Nodup) (k : κ) :
    items.filter (fun item => key item = k) = others.filter fun item => key item = k := by
  have hk {list : List α} {item : α} (hm : item ∈ list.filter fun item => key item = k) :
      key item = k := by
    simpa using (List.mem_filter.mp hm).2
  have hd {list : List α} (h : (list.map key).Nodup) :
      (list.filter fun item => key item = k).Pairwise fun a b => key a ≠ key b :=
        (List.pairwise_map.mp h).filter _
  refine (hp.filter _).eq_of_pairwise (fun a b ha hb hab _ =>
    ?_) (hd hn) (hd ((hp.map key).nodup_iff.mp hn))
  exact absurd ((hk ha).trans (hk hb).symm) hab

variable [LE κ]

/-- Two ascending lists with the same items of each key are one list. -/
theorem eq_of_ascending [DecidableEq κ] [Std.IsLinearOrder κ] {key : α → κ} {items others : List α}
    (hi : items.Pairwise fun a b => key a ≤ key b) (ho : others.Pairwise fun a b => key a ≤ key b)
    (h : ∀ k, items.filter (fun item => key item = k) = others.filter fun item => key item = k) :
    items = others := by
  induction items generalizing others with
  | nil =>
    have hn : ∀ item, item ∉ others :=
        fun item hm => List.not_mem_nil ((mem_iff_of_filter_eq h).mpr hm)
    exact (List.eq_nil_iff_forall_not_mem.mpr hn).symm
  | cons first rest ih =>
    cases others with
    | nil => exact absurd ((mem_iff_of_filter_eq h).mp List.mem_cons_self) List.not_mem_nil
    | cons head tail =>
      have hle {a b : α} {list : List α} (hs : (a :: list).Pairwise fun a b =>
          key a ≤ key b) (hb : b ∈ a :: list) :
          key a ≤ key b := by
        rcases List.mem_cons.mp hb with rfl | hm
        · exact Std.le_refl _
        · exact (List.pairwise_cons.mp hs).1 b hm
      have hk : key first = key head :=
          Std.le_antisymm (hle hi ((mem_iff_of_filter_eq h).mpr List.mem_cons_self))
        (hle ho ((mem_iff_of_filter_eq h).mp List.mem_cons_self))
      -- Both heads are the first item of their common key.
      have hf : first = head := by
        have he := h (key head)
        simp only [List.filter_cons, hk, decide_true, if_true, List.cons.injEq] at he
        exact he.1
      subst hf
      congr 1
      refine ih hi.of_cons ho.of_cons fun k => ?_
      by_cases hfk : key first = k <;> simpa [hfk] using h k

/-- The sorted list has the items in ascending order of their keys, and those of one key in their
own order. -/
structure StablySorted [DecidableEq κ] (key : α → κ) (items sorted : List α) : Prop where
  ascending : sorted.Pairwise fun a b => key a ≤ key b
  stable : ∀ k, sorted.filter (fun item => key item = k) = items.filter fun item => key item = k

namespace StablySorted

variable [DecidableEq κ] {key : α → κ} {items sorted : List α}

theorem perm [DecidableEq α] (h : StablySorted key items sorted) :
    sorted.Perm items := perm_of_filter_eq h.stable

/-- There is one way to sort items, and it only depends on what there is of each key. -/
theorem unique [Std.IsLinearOrder κ] {others other : List α} (hs : StablySorted key items sorted)
    (ho : StablySorted key others other)
    (h : ∀ k, items.filter (fun item => key item = k) = others.filter fun item => key item = k) :
    sorted = other :=
  eq_of_ascending hs.ascending ho.ascending fun k =>
    (hs.stable k).trans ((h k).trans (ho.stable k).symm)

theorem eq_of_perm [Std.IsLinearOrder κ] {others other : List α}
    (hs : StablySorted key items sorted) (ho : StablySorted key others other)
    (hp : items.Perm others) (hn : (items.map key).Nodup) : sorted = other :=
  hs.unique ho (filter_eq_of_perm hp hn)

end StablySorted

section MergeSort

variable [DecidableLE κ]

theorem decide_le_trans [Std.IsLinearPreorder κ] (key : α → κ) (a b c : α) :
    decide (key a ≤ key b) → decide (key b ≤ key c) → decide (key a ≤ key c) := by
  simp only [decide_eq_true_eq]
  exact Std.le_trans

theorem decide_le_total [Std.IsLinearPreorder κ] (key : α → κ) (a b : α) :
    (decide (key a ≤ key b) || decide (key b ≤ key a)) = true := by
  simp only [Bool.or_eq_true, decide_eq_true_eq]
  exact Std.le_total

theorem pairwise_mergeSort_key [Std.IsLinearPreorder κ] (key : α → κ) (items : List α) :
    (items.mergeSort fun a b => key a ≤ key b).Pairwise fun a b => key a ≤ key b := by
  have h := List.pairwise_mergeSort (decide_le_trans key) (decide_le_total key) items
  simpa only [decide_eq_true_eq] using h

/-- Merge sort is stable. -/
theorem stablySorted_mergeSort [DecidableEq κ] [Std.IsLinearPreorder κ] (key : α → κ)
    (items : List α) :
    StablySorted key items (items.mergeSort fun a b => key a ≤ key b) := by
  refine ⟨pairwise_mergeSort_key key items, fun k => ?_⟩
  -- The items of one key ascend already, so sorting keeps them in their order.
  have ha : (items.filter fun item => key item = k).Pairwise fun a b => decide (key a ≤ key b) := by
    refine List.pairwise_of_forall_mem_list fun a hm b hb => ?_
    have he : key a = key b := by
      rw [List.mem_filter, decide_eq_true_eq] at hm hb
      exact hm.2.trans hb.2.symm
    exact decide_eq_true (Std.le_of_eq he)
  have hs :=
      (List.sublist_mergeSort (decide_le_trans key) (decide_le_total key) ha
        List.filter_sublist).filter
    fun item => key item = k
  rw [List.filter_filter] at hs
  simp only [Bool.and_self] at hs
  exact (hs.eq_of_length ((List.mergeSort_perm items _).symm.filter _).length_eq).symm

theorem mergeSort_eq_of_perm [DecidableEq κ] [Std.IsLinearOrder κ] {key : α → κ}
    {items others : List α} (hp : items.Perm others) (hn : (items.map key).Nodup) :
    (items.mergeSort fun a b => key a ≤ key b) = others.mergeSort fun a b => key a ≤ key b :=
  (stablySorted_mergeSort key items).eq_of_perm (stablySorted_mergeSort key others) hp hn

end MergeSort
end CatalogDdl
