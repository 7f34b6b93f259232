import CatalogDdl.Proofs.Fallible
import CatalogDdl.Script.Skip
import Mathlib.Data.List.Nodup
import Mathlib.Data.List.Perm.Basic
import Mathlib.Order.Bounds.Defs

/-!
# The least set of skipped tables

The tables that a script leaves out are the least set that has every defective table and every table
that refers to another table of the set. Each pass adds only tables that any such set has, and the
last pass finds none that is missing.
-/
namespace CatalogDdl

def Draft.names (drafts : List Draft) : List String := drafts.map (·.table.name)

@[simp] theorem Draft.names_nil : names [] = [] := rfl

@[simp] theorem Draft.names_cons (draft : Draft) (rest : List Draft) :
    names (draft :: rest) = draft.table.name :: names rest := rfl

namespace Skip

@[simp] theorem names_nil : names [] = [] := rfl

@[simp] theorem names_cons (skip : Skip) (rest : List Skip) :
    names (skip :: rest) = skip.name :: names rest := rfl

@[simp] theorem names_append (first second : List Skip) :
    names (first ++ second) = names first ++ names second := by
  simp [names]

/-- A set that has every table which refers to another table of the set. -/
def Absorbs (tables : List Table) (S : Set String) : Prop :=
  ∀ table ∈ tables, ∀ part ∈ table.foreignKeyParts,
    part.referencedTable ≠ table.name → part.referencedTable ∈ S → table.name ∈ S

/-- A set that has every defective table and every table which refers to another table of the
set. -/
structure Closed (tables : List Table) (S : Set String) : Prop where
  defective : ∀ table ∈ tables, ∀ defect, table.define = .error defect → table.name ∈ S
  absorbs : Absorbs tables S

/-- The skip of a table for the first of its parts that refers to another table among the named
ones. -/
def Follows (earlier : List String) (table : Table) (skip : Skip) : Prop :=
  ∃ before part after, table.foreignKeyParts = before ++ part :: after ∧
    (part.referencedTable ≠ table.name ∧ part.referencedTable ∈ earlier) ∧
    (∀ other ∈ before, other.referencedTable ≠ table.name → other.referencedTable ∉ earlier) ∧
    skip = ⟨table.name, .reference part.referencedTable part.constraint⟩ ∧
    skip.reason.message = "references skipped table " ++ part.referencedTable ++ " via "
      ++ part.constraint

theorem following?_eq_none {skipped : List String} {table : Table} :
    following? skipped table = none ↔
      ∀ part ∈ table.foreignKeyParts, part.referencedTable ≠ table.name →
        part.referencedTable ∉ skipped := by
  simp [following?]

/-- A skip names the first part that refers to a skipped table. -/
theorem following?_eq_some_iff {skipped : List String} {table : Table} {skip : Skip} :
    following? skipped table = some skip ↔ Follows skipped table skip := by
  simp only [following?, Option.map_eq_some_iff, List.find?_eq_some_iff_append, Bool.and_eq_true,
    decide_eq_true_eq, List.contains_iff_mem, Bool.not_eq_true', Bool.and_eq_false_imp]
  constructor
  · rintro ⟨part, ⟨hp, before, after, ht, hb⟩, rfl⟩
    exact ⟨before, part, after, ht, hp, fun other ho hne => by simpa [hne] using hb other ho, rfl,
      rfl⟩
  · rintro ⟨before, part, after, ht, hp, hb, rfl, -⟩
    exact ⟨part, ⟨hp, before, after, ht, fun other ho hne => by simpa using hb other ho hne⟩, rfl⟩

/-- A table follows because a part of it refers to another table, which is skipped. -/
theorem following?_eq_some {skipped : List String} {table : Table} {skip : Skip}
    (h : following? skipped table = some skip) : skip.name = table.name ∧
      ∃ part ∈ table.foreignKeyParts, part.referencedTable ≠ table.name ∧
      part.referencedTable ∈ skipped := by
  obtain ⟨_, part, _, ht, ⟨hne, hs⟩, -, rfl, -⟩ := following?_eq_some_iff.mp h
  exact ⟨rfl, part, by simp [ht], hne, hs⟩

/-- What passes over drafts make of them and of the names skipped before. -/
structure Passed (skipped : List String) (drafts kept : List Draft) (left : List String) :
    Prop where
  sublist : kept.Sublist drafts
  perm : (left ++ Draft.names kept).Perm (skipped ++ Draft.names drafts)
  grows : skipped ⊆ left
  /-- Nothing is left out that some closed set has not. -/
  forced : ∀ S, Absorbs (drafts.map (·.table)) S → (∀ name ∈ skipped, name ∈ S) →
    ∀ name ∈ left, name ∈ S

theorem Passed.refl (skipped : List String) (drafts : List Draft) :
    Passed skipped drafts drafts skipped :=
  ⟨.refl _, .refl _, List.Subset.refl _, fun _ _ h => h⟩

/-- Passes may follow each other. -/
theorem Passed.trans {skipped middle left : List String} {drafts some kept : List Draft}
    (h₁ : Passed skipped drafts some middle) (h₂ : Passed middle some kept left) :
    Passed skipped drafts kept left where
  sublist := h₂.sublist.trans h₁.sublist
  perm := h₂.perm.trans h₁.perm
  grows := List.Subset.trans h₁.grows h₂.grows
  forced S ha hs := by
    have hm : Absorbs (some.map (·.table)) S := fun table ht =>
      ha table ((h₁.sublist.map _).subset ht)
    exact h₂.forced S hm (h₁.forced S ha hs)

/-- A pass leaves out only what follows from the names skipped before it or during it. -/
theorem sweep_passed (skipped : List String) (drafts : List Draft) :
    Passed skipped drafts (sweep skipped drafts).kept
      (skipped ++ names (sweep skipped drafts).left) := by
  induction drafts generalizing skipped with
  | nil => simpa using Passed.refl skipped []
  | cons draft rest ih =>
    unfold sweep
    split
    · rename_i skip hf
      obtain ⟨hn, part, hp, hne, hs⟩ := following?_eq_some hf
      have h := ih (skip.name :: skipped)
      constructor
      · exact h.sublist.cons draft
      · have hp : (skip.name :: (skipped ++ names (sweep (skip.name :: skipped) rest).left ++
            Draft.names (sweep (skip.name :: skipped) rest).kept)).Perm
            (skip.name :: (skipped ++ Draft.names rest)) := h.perm
        simp only [names_cons, Draft.names_cons, hn, List.append_assoc, List.cons_append] at hp ⊢
        exact List.perm_middle.trans (hp.trans List.perm_middle.symm)
      · exact List.subset_append_left _ _
      · intro S ha hS
        have hd : skip.name ∈ S := by
          rw [hn]
          exact ha draft.table List.mem_cons_self part hp hne (hS _ hs)
        have hr := h.forced S (fun table ht => ha table (List.mem_cons_of_mem _ ht)) (by
          simpa using ⟨hd, hS⟩)
        intro name hm
        exact hr name (List.perm_middle.mem_iff.mp (by simpa using hm))
    · have h := ih skipped
      constructor
      · exact h.sublist.cons_cons draft
      · simp only [Draft.names_cons]
        exact List.perm_middle.trans ((h.perm.cons draft.table.name).trans List.perm_middle.symm)
      · exact List.subset_append_left _ _
      · intro S ha
        exact h.forced S fun table ht => ha table (List.mem_cons_of_mem _ ht)

/-- A pass that leaves nothing out has found no draft that follows. -/
theorem following?_eq_none_of_sweep {skipped : List String} {drafts : List Draft}
    (h : (sweep skipped drafts).left = []) :
    ∀ draft ∈ drafts, following? skipped draft.table = none := by
  induction drafts with
  | nil => simp
  | cons draft rest ih =>
    unfold sweep at h
    split at h
    · cases h
    · rename_i hf
      exact List.forall_mem_cons.mpr ⟨hf, ih h⟩

/-- A pass over drafts of which none follows keeps them all. -/
theorem sweep_of_settled {skipped : List String} {drafts : List Draft}
    (h : ∀ draft ∈ drafts, following? skipped draft.table = none) :
    sweep skipped drafts = { kept := drafts } := by
  induction drafts with
  | nil => rfl
  | cons draft rest ih =>
    obtain ⟨hd, hr⟩ := List.forall_mem_cons.mp h
    rw [sweep, hd]
    simp only [ih hr]

theorem spread_passed (skipped : List Skip) (drafts : List Draft) :
    Passed (names skipped) drafts (spread skipped drafts).kept
      (names (spread skipped drafts).left) := by
  fun_induction spread skipped drafts with
  | case1 => exact .refl _ _
  | case2 skipped drafts pass _ ih =>
    rw [names_append] at ih
    exact (sweep_passed (names skipped) drafts).trans ih

/-- After the last pass no draft that is kept follows. -/
theorem spread_settled (skipped : List Skip) (drafts : List Draft) :
    ∀ draft ∈ (spread skipped drafts).kept,
    following? (names (spread skipped drafts).left) draft.table = none := by
  fun_induction spread skipped drafts with
  | case1 skipped drafts pass h => exact following?_eq_none_of_sweep h
  | case2 skipped drafts pass _ ih => exact ih

/-- The drafts are the tables that have a definition. -/
theorem mem_drafts {tables : List Table} {draft : Draft} :
    draft ∈ drafts tables ↔ draft.table ∈ tables ∧ draft.table.define = .ok draft.definition := by
  rw [drafts, List.mem_filterMap]
  constructor
  · rintro ⟨table, ht, h⟩
    cases hd : table.define with
    | error defect => simp [hd] at h
    | ok definition =>
      simp only [hd, Option.some.injEq] at h
      subst h
      exact ⟨ht, hd⟩
  · rintro ⟨ht, hd⟩
    exact ⟨draft.table, ht, by simp [hd]⟩

theorem name_mem_defective {tables : List Table} {table : Table} {defect : Defect}
    (ht : table ∈ tables) (hd : table.define = .error defect) :
    table.name ∈ names (defective tables) :=
  List.mem_map.mpr ⟨⟨table.name, .defect defect⟩, List.mem_filterMap.mpr ⟨table, ht, by simp [hd]⟩,
    rfl⟩

theorem exists_of_mem_defective {tables : List Table} {name : String}
    (h : name ∈ names (defective tables)) :
    ∃ table ∈ tables, table.name = name ∧ ∃ defect, table.define = .error defect := by
  obtain ⟨skip, hs, rfl⟩ := List.mem_map.mp h
  obtain ⟨table, ht, hd⟩ := List.mem_filterMap.mp hs
  cases he : table.define with
  | ok definition => simp [he] at hd
  | error defect =>
    simp only [he, Option.some.injEq] at hd
    subst hd
    exact ⟨table, ht, rfl, defect, he⟩

/-- Each table either has a defect or a draft. -/
theorem names_perm (tables : List Table) :
    (names (defective tables) ++ Draft.names (drafts tables)).Perm (tables.map (·.name)) := by
  induction tables with
  | nil => exact .refl _
  | cons table rest ih =>
    cases hd : table.define with
    | error defect =>
      simpa [defective, drafts, hd] using ih
    | ok definition =>
      simp only [defective, drafts, List.filterMap_cons, hd, List.map_cons] at ih ⊢
      exact List.perm_middle.trans (ih.cons table.name)

theorem select_passed (tables : List Table) : Passed (names (defective tables)) (drafts tables)
    (select tables).kept (names (select tables).left) := spread_passed _ _

/-- Each table is either kept or left out. -/
theorem select_perm (tables : List Table) :
    (names (select tables).left ++ Draft.names (select tables).kept).Perm (tables.map (·.name)) :=
  (select_passed tables).perm.trans (names_perm tables)

theorem nodup_names_drafts {tables : List Table} (hn : (tables.map (·.name)).Nodup) :
    (Draft.names (drafts tables)).Nodup :=
  (List.nodup_append.mp ((names_perm tables).nodup_iff.mpr hn)).2.1

/-- A draft is kept if and only if its name is not left out. -/
theorem mem_kept_iff {tables : List Table} (hn : (tables.map (·.name)).Nodup) {draft : Draft}
    (hd : draft ∈ drafts tables) :
    draft ∈ (select tables).kept ↔ draft.table.name ∉ names (select tables).left := by
  have hp := (List.nodup_append.mp ((select_perm tables).nodup_iff.mpr hn)).2.2
  constructor
  · intro hk hl
    exact hp _ hl _ (List.mem_map_of_mem hk) rfl
  · intro hl
    have ht : draft.table.name ∈ tables.map (·.name) := List.mem_map_of_mem (mem_drafts.mp hd).1
    rcases List.mem_append.mp ((select_perm tables).mem_iff.mpr ht) with h | h
    · exact absurd h hl
    · obtain ⟨other, hk, he⟩ := List.mem_map.mp h
      have ho := (select_passed tables).sublist.subset hk
      exact List.inj_on_of_nodup_map (nodup_names_drafts hn) ho hd he ▸ hk

/-- The drafts that are kept are those not left out, in their order. -/
theorem kept_eq_filter {tables : List Table} (hn : (tables.map (·.name)).Nodup) :
    (select tables).kept = (drafts tables).filter fun draft =>
      draft.table.name ∉ names (select tables).left := by
  have hd := List.Nodup.of_map _ (nodup_names_drafts hn)
  have hs := (select_passed tables).sublist
  refine (hd.perm_iff_eq_of_sublist hs List.filter_sublist).mp ?_
  refine (List.perm_ext_iff_of_nodup (hs.nodup hd) (hd.filter _)).mpr fun draft => ?_
  rw [List.mem_filter, decide_eq_true_eq]
  constructor
  · intro hk
    exact ⟨hs.subset hk, (mem_kept_iff hn (hs.subset hk)).mp hk⟩
  · rintro ⟨hm, hl⟩
    exact (mem_kept_iff hn hm).mpr hl

/-- The tables left out are the least closed set. -/
theorem isLeast_left {tables : List Table} (hn : (tables.map (·.name)).Nodup) :
    IsLeast {S : Set String | Closed tables S} {name | name ∈ names (select tables).left} := by
  have hp := select_passed tables
  constructor
  · constructor
    · intro table ht defect hd
      exact hp.grows (name_mem_defective ht hd)
    · intro table ht part hm hne hs
      by_contra hl
      cases hd : table.define with
      | error defect => exact hl (hp.grows (name_mem_defective ht hd))
      | ok definition =>
        have hk : ⟨table, definition⟩ ∈ (select tables).kept :=
          (mem_kept_iff hn (mem_drafts.mpr ⟨ht, hd⟩)).mpr hl
        exact following?_eq_none.mp (spread_settled _ _ _ hk) part hm hne hs
  · intro S hS name hl
    refine hp.forced S ?_ ?_ name hl
    · intro table ht
      obtain ⟨draft, hd, rfl⟩ := List.mem_map.mp ht
      exact hS.absorbs draft.table (mem_drafts.mp hd).1
    · intro name hm
      obtain ⟨table, ht, rfl, defect, hd⟩ := exists_of_mem_defective hm
      exact hS.defective table ht defect hd

/-- The drafts that a test of tables accepts are the definitions of the tables it accepts, in their
order. -/
theorem mapM_define_filter {tables : List Table} {p : Table → Bool}
    (h : ∀ table ∈ tables, p table = true → ∃ definition, table.define = .ok definition) :
    (tables.filter p).mapM Table.define =
      .ok (((drafts tables).filter fun draft => p draft.table).map (·.definition)) := by
  rw [mapM_eq_ok_iff]
  induction tables with
  | nil => exact .nil
  | cons table rest ih =>
    have hr := ih fun other ho => h other (List.mem_cons_of_mem _ ho)
    cases hd : table.define with
    | error defect =>
      have hp : p table = false := by
        by_contra hp
        obtain ⟨definition, hk⟩ := h table List.mem_cons_self (by simpa using hp)
        rw [hd] at hk
        cases hk
      simpa [drafts, hd, hp] using hr
    | ok definition =>
      cases hp : p table with
      | false => simpa [drafts, hd, hp] using hr
      | true => simpa [drafts, hd, hp] using hr

/-- Of tables without a defect all are kept. -/
theorem select_of_defined {tables : List Table}
    (h : ∀ table ∈ tables, ∃ definition, table.define = .ok definition) :
    select tables = { kept := drafts tables } := by
  have hd : defective tables = [] := by
    refine List.filterMap_eq_nil_iff.mpr fun table ht => ?_
    obtain ⟨definition, hd⟩ := h table ht
    simp [hd]
  have hs : sweep (names []) (drafts tables) = { kept := drafts tables } :=
    sweep_of_settled fun draft _ => following?_eq_none.mpr (by simp)
  rw [select, hd, spread]
  simp only [hs, if_true]

/-- What is kept are the definitions of the tables that are not left out, in declared order. -/
theorem mapM_define_kept {tables : List Table} (hn : (tables.map (·.name)).Nodup) :
    (tables.filter fun table => table.name ∉ names (select tables).left).mapM Table.define =
      .ok ((select tables).kept.map (·.definition)) := by
  rw [kept_eq_filter hn]
  refine mapM_define_filter fun table ht hl => ?_
  cases hd : table.define with
  | ok definition => exact ⟨definition, rfl⟩
  | error defect =>
    have hm := (select_passed tables).grows (name_mem_defective ht hd)
    simp [hm] at hl

end Skip
end CatalogDdl
