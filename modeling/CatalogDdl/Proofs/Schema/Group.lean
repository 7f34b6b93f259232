import Mathlib.Algebra.GroupWithZero.Nat
import Mathlib.Data.List.Perm.Basic

/-!
# Lists by name

The distinct items of a list stand in the order in which they first occur. The items of each name,
one name after the other, are all items again, and lists that agree on the items of each name differ
only in how the items of different names are interleaved.
-/
namespace CatalogDdl

variable {α : Type}

/-- The distinct items of a list, in the order in which they first occur: where the later of two
items stands in the list, the earlier one stands before it. -/
structure FirstSeen (items distinct : List α) : Prop where
  nodup : distinct.Nodup
  mem_iff : ∀ item, item ∈ distinct ↔ item ∈ items
  ordered : distinct.Pairwise fun earlier later =>
    ∀ before after, items = before ++ later :: after → earlier ∈ before

theorem FirstSeen.nil : FirstSeen ([] : List α) [] := ⟨.nil, by simp, .nil⟩

theorem FirstSeen.cons [DecidableEq α] {item : α} {rest distinct : List α}
    (h : FirstSeen (rest.filter fun other => !other == item) distinct) :
    FirstSeen (item :: rest) (item :: distinct) := by
  have hne : ∀ other ∈ distinct, other ∈ rest ∧ other ≠ item := by
    intro other ho
    simpa using (h.mem_iff other).mp ho
  -- Where another item stands, the first one is already behind.
  have hsplit {later : α} {before after : List α} (hl : later ≠ item)
      (he : item :: rest = before ++ later :: after) :
      ∃ front, before = item :: front ∧ rest = front ++ later :: after := by
    cases before with
    | nil => exact absurd (List.cons.inj he).1.symm hl
    | cons first front =>
      obtain ⟨rfl, ht⟩ := List.cons.inj he
      exact ⟨front, rfl, ht⟩
  constructor
  · exact List.nodup_cons.mpr ⟨fun hm => (hne item hm).2 rfl, h.nodup⟩
  · intro other
    by_cases ho : other = item <;> simp [h.mem_iff, ho]
  · refine List.pairwise_cons.mpr ⟨?_, h.ordered.imp_of_mem ?_⟩
    · intro later hl before after he
      obtain ⟨front, rfl, -⟩ := hsplit (hne later hl).2 he
      exact List.mem_cons_self
    · intro earlier later _ hl ho before after he
      obtain ⟨front, rfl, ht⟩ := hsplit (hne later hl).2 he
      have hm :=
          ho (front.filter fun other => !other == item) (after.filter fun other => !other == item)
        (by simp [ht, (hne later hl).2])
      exact List.mem_cons_of_mem _ (List.mem_of_mem_filter hm)

/-- Induction over a list from which each first item is taken together with its repetitions. -/
theorem erasing_induction [BEq α] {motive : List α → Prop} (nil : motive [])
    (cons : ∀ item rest, motive (rest.filter fun other => !other == item) → motive (item :: rest))
    (items : List α) : motive items := by
  induction h : items.length using Nat.strongRecOn generalizing items with
  | ind n ih =>
    cases items with
    | nil => exact nil
    | cons item rest =>
      refine cons item rest (ih _ ?_ _ rfl)
      have := List.length_filter_le (fun other => !other == item) rest
      simp only [List.length_cons] at h
      omega

theorem firstSeen_eraseDups [DecidableEq α] (items : List α) : FirstSeen items items.eraseDups := by
  induction items using erasing_induction with
  | nil => exact .nil
  | cons item rest ih =>
    rw [List.eraseDups_cons]
    exact ih.cons

/-- Erasing repetitions leaves none. -/
theorem nodup_eraseDups [DecidableEq α] (items : List α) :
    items.eraseDups.Nodup := (firstSeen_eraseDups items).nodup

theorem eraseDups_eq_self [BEq α] [LawfulBEq α] {items : List α} (h : items.Nodup) :
    items.eraseDups = items := by
  induction items with
  | nil => rfl
  | cons item rest ih =>
    obtain ⟨hi, hr⟩ := List.nodup_cons.mp h
    have hf : rest.filter (fun other => !other == item) = rest := by
      refine List.filter_eq_self.mpr fun other ho => ?_
      have hne : other ≠ item := fun he => hi (he ▸ ho)
      simpa using hne
    rw [List.eraseDups_cons, hf, ih hr]

/-- Lists without an item in common do not take distinct items from each other. -/
theorem length_eraseDups_flatMap {ι : Type} [BEq α] [LawfulBEq α] {f : ι → List α} {items : List ι}
    (h : items.Pairwise fun a b => (f a).Disjoint (f b)) :
    (items.flatMap f).eraseDups.length = (items.map fun item => (f item).eraseDups.length).sum := by
  induction items with
  | nil => rfl
  | cons item rest ih =>
    rw [List.pairwise_cons] at h
    have hd : (rest.flatMap f).removeAll (f item) = rest.flatMap f := by
      refine List.filter_eq_self.mpr fun x hx => ?_
      obtain ⟨other, ho, hx⟩ := List.mem_flatMap.mp hx
      simpa using fun hm => h.1 other ho hm hx
    rw [List.flatMap_cons, List.eraseDups_append, hd, List.length_append, ih h.2, List.map_cons,
      List.sum_cons]

variable {name : α → String}

/-- The items of each of some names, one name after the other, are all items of these names. -/
theorem flatMap_filter_perm {names : List String} {items : List α} (hn : names.Nodup)
    (hi : ∀ item ∈ items, name item ∈ names) :
    (names.flatMap fun shared => items.filter fun item => name item = shared).Perm items := by
  induction names generalizing items with
  | nil =>
    have he : items = [] := List.eq_nil_iff_forall_not_mem.mpr fun item hm =>
        List.not_mem_nil (hi item hm)
    simp [he]
  | cons first rest ih =>
    obtain ⟨hf, hr⟩ := List.nodup_cons.mp hn
    let others := items.filter fun item => !decide (name item = first)
    have ho : ∀ item ∈ others, name item ∈ rest := by
      intro item hm
      obtain ⟨hm, hne⟩ := List.mem_filter.mp hm
      simpa [show name item ≠ first by simpa using hne] using hi item hm
    -- The other names have no items of the first one.
    have he : (rest.flatMap fun shared => items.filter fun item => name item = shared) =
        rest.flatMap fun shared => others.filter fun item => name item = shared := by
      refine List.flatMap_congr fun shared hs => ?_
      rw [List.filter_filter]
      refine List.filter_congr fun item _ => ?_
      have hne : shared ≠ first := fun h => hf (h ▸ hs)
      by_cases hk : name item = shared <;> simp [hk, hne]
    rw [List.flatMap_cons, he]
    exact ((ih hr ho).append_left _).trans (List.filter_append_perm _ _)

/-- The items of each of some names, one name after the other, are the items that have one of
them. -/
theorem flatMap_filter_perm_filter {names : List String} (hn : names.Nodup) (items : List α) :
    (names.flatMap fun shared => items.filter fun item => name item = shared).Perm
      (items.filter fun item => name item ∈ names) := by
  have hi : ∀ item ∈ items.filter (fun item => name item ∈ names), name item ∈ names := by simp
  refine List.Perm.trans (.of_eq ?_) (flatMap_filter_perm hn hi)
  refine List.flatMap_congr fun shared hs => ?_
  rw [List.filter_filter]
  refine List.filter_congr fun item _ => ?_
  by_cases hk : name item = shared <;> simp [hk, hs]

section Same

variable {κ : Type} [DecidableEq κ] {key : α → κ} {items others : List α}

theorem mem_iff_of_filter_eq
    (h : ∀ k, items.filter (fun item => key item = k) = others.filter fun item => key item = k)
    {item : α} : item ∈ items ↔ item ∈ others := by
  have hm (list : List α) : item ∈ list.filter (fun other => key other = key item) ↔
      item ∈ list := by simp
  rw [← hm items, h, hm]

theorem perm_of_filter_eq [DecidableEq α]
    (h : ∀ k, items.filter (fun item => key item = k) = others.filter fun item => key item = k) :
    items.Perm others := by
  refine List.perm_iff_count.mpr fun item => ?_
  have hc (list : List α) :
      list.count item = (list.filter fun other => key other = key item).count item :=
    (List.count_filter (by simp)).symm
  rw [hc items, hc others, h]

end Same

/-- The two lists have the same items of each name, in the same order. -/
def SameByName (name : α → String) (items others : List α) : Prop :=
  ∀ shared, items.filter (fun item => name item = shared) = others.filter fun item =>
    name item = shared

namespace SameByName

variable {items others : List α}

theorem symm (h : SameByName name items others) :
    SameByName name others items := fun shared => (h shared).symm

theorem mem_iff (h : SameByName name items others) {item : α} :
    item ∈ items ↔ item ∈ others := mem_iff_of_filter_eq h

theorem perm [DecidableEq α] (h : SameByName name items others) :
    items.Perm others := perm_of_filter_eq h

/-- Only names that occur need to be compared. -/
theorem iff_forall_mem : SameByName name items others ↔ ∀ item ∈ items ++ others,
    items.filter (fun other => name other = name item) =
      others.filter fun other => name other = name item := by
  refine ⟨fun h item _ => h (name item), fun h shared => ?_⟩
  by_cases ho : ∃ item ∈ items ++ others, name item = shared
  · obtain ⟨item, hm, rfl⟩ := ho
    exact h item hm
  · have hn : ∀ item ∈ items ++ others, name item ≠ shared := by simpa using ho
    have hf (list : List α) (hl : ∀ item ∈ list, item ∈ items ++ others) :
        list.filter (fun item => name item = shared) = [] :=
      List.filter_eq_nil_iff.mpr fun item hi => by simpa using hn item (hl item hi)
    rw [hf items fun _ => List.mem_append_left _, hf others fun _ => List.mem_append_right _]

instance [DecidableEq α] : Decidable (SameByName name items others) :=
  decidable_of_iff' _ iff_forall_mem

end SameByName

end CatalogDdl
