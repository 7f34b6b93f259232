import CatalogDdl.Proofs.Script.Created

/-!
# Why tables are skipped

The skips of a script are listed so that each is explained by what stands before it: first the
tables that have a defect, and then tables that refer to one listed earlier. So whoever follows the
reasons comes to a defect in the end, through cycles of references as well.
-/
namespace CatalogDdl

def Table.isDefective (table : Table) : Bool := !table.define.isOk

namespace Skip

/-- The skip of a table for a defect of its own. -/
def IsOwn (table : Table) (skip : Skip) : Prop :=
  ∃ defect, table.define = .error defect ∧ skip = ⟨table.name, .defect defect⟩ ∧
    skip.reason.message = defect.message

/-- Whoever follows the reason of a skip, and then that of each skip which it names, comes to a
table with a defect of its own after finitely many steps. -/
inductive LeadsBack (tables : List Table) (skipped : List Skip) : Skip → Prop where
  | own {table : Table} {defect : Defect} (ht : table ∈ tables)
      (hd : table.define = .error defect) :
    LeadsBack tables skipped ⟨table.name, .defect defect⟩
  | step {name referenced foreignKey : String} (hm : referenced ∈ names skipped)
    (hl : ∀ cause ∈ skipped, cause.name = referenced → LeadsBack tables skipped cause) :
    LeadsBack tables skipped ⟨name, .reference referenced foreignKey⟩

/-- Only the set of the names skipped before matters. -/
theorem following?_congr {skipped others : List String} (h : ∀ name, name ∈ skipped ↔ name ∈ others)
    (table : Table) :
    following? skipped table = following? others table := by
  simp only [following?, List.contains_eq_mem, h]

/-- Each skip of the list is the one by which some draft follows from the names that stand before
it. -/
def Explained (drafts : List Draft) : List String → List Skip → Prop
  | _, [] => True
  | skipped, skip :: rest =>
    (∃ draft ∈ drafts, following? skipped draft.table = some skip) ∧
      Explained drafts (skipped ++ [skip.name]) rest

section Explained

variable {drafts all : List Draft} {skipped others : List String} {left rest : List Skip}

theorem Explained.mono (h : Explained drafts skipped left) (hd : drafts ⊆ all) :
    Explained all skipped left := by
  induction left generalizing skipped with
  | nil => trivial
  | cons skip rest ih =>
    obtain ⟨⟨draft, hm, hf⟩, hr⟩ := h
    exact ⟨⟨draft, hd hm, hf⟩, ih hr⟩

theorem Explained.congr (h : Explained drafts skipped left)
    (hn : ∀ name, name ∈ skipped ↔ name ∈ others) :
    Explained drafts others left := by
  induction left generalizing skipped others with
  | nil => trivial
  | cons skip rest ih =>
    obtain ⟨⟨draft, hm, hf⟩, hr⟩ := h
    rw [following?_congr hn] at hf
    exact ⟨⟨draft, hm, hf⟩, ih hr fun name => by simp [hn]⟩

theorem Explained.append (h : Explained drafts skipped left)
    (hr : Explained drafts (skipped ++ names left) rest) :
    Explained drafts skipped (left ++ rest) := by
  induction left generalizing skipped with
  | nil => simpa using hr
  | cons skip left ih =>
    obtain ⟨hf, hl⟩ := h
    exact ⟨hf, ih hl (by simpa using hr)⟩

/-- What explains a skip in the middle of the list. -/
theorem Explained.middle {before after : List Skip} {skip : Skip}
    (h : Explained drafts skipped (before ++ skip :: after)) :
    ∃ draft ∈ drafts, following? (skipped ++ names before) draft.table = some skip := by
  induction before generalizing skipped with
  | nil => simpa using h.1
  | cons first before ih => simpa using ih h.2

end Explained

/-- A pass explains what it leaves out. -/
theorem sweep_explained (skipped : List String) (drafts : List Draft) :
    Explained drafts skipped (sweep skipped drafts).left := by
  induction drafts generalizing skipped with
  | nil => trivial
  | cons draft rest ih =>
    have hr {names : List String} : Explained (draft :: rest) names (sweep names rest).left :=
      (ih names).mono (List.subset_cons_self _ _)
    unfold sweep
    split
    · rename_i skip hf
      exact ⟨⟨draft, List.mem_cons_self, hf⟩, hr.congr fun name => by simp [or_comm]⟩
    · exact hr

/-- All passes together add skips to those they begin with, and explain what they add. -/
theorem spread_explained (skipped : List Skip) (drafts : List Draft) :
    ∃ later, (spread skipped drafts).left = skipped ++ later ∧
    Explained drafts (names skipped) later := by
  fun_induction spread skipped drafts with
  | case1 skipped drafts => exact ⟨[], by simp, trivial⟩
  | case2 skipped drafts pass _ ih =>
    obtain ⟨later, hl, he⟩ := ih
    rw [names_append] at he
    have hs : pass.kept ⊆ drafts := (sweep_passed (names skipped) drafts).sublist.subset
    exact ⟨pass.left ++ later, by rw [hl, List.append_assoc],
      (sweep_explained _ _).append (he.mono hs)⟩

/-- The tables with a defect are skipped for it, each in its turn. -/
theorem forall₂_defective (tables : List Table) :
    List.Forall₂ IsOwn (tables.filter (·.isDefective)) (defective tables) := by
  induction tables with
  | nil => exact .nil
  | cons table rest ih =>
    cases hd : table.define with
    | ok definition =>
      have hf : table.isDefective = false := by
        rw [Table.isDefective, isOk_iff.mpr ⟨definition, hd⟩, Bool.not_true]
      simpa [defective, hf, hd] using ih
    | error defect =>
      have hf : table.isDefective = true := by
        rw [Table.isDefective, Bool.not_eq_true', Bool.eq_false_iff, ne_eq, isOk_iff, hd]
        rintro ⟨definition, h⟩
        cases h
      have ho : IsOwn table ⟨table.name, .defect defect⟩ := ⟨defect, hd, rfl, rfl⟩
      simpa [defective, hf, hd] using And.intro ho ih

/-- Skips of distinct tables lead back if the first of them are for defects and the others
follow. -/
theorem leadsBack_of_follows {tables : List Table} {own later : List Skip}
    (hn : (names (own ++ later)).Nodup) (ho : ∀ skip ∈ own, ∃ table ∈ tables, IsOwn table skip)
    (hl : ∀ before skip after, later = before ++ skip :: after →
      ∃ table ∈ tables, Follows (names (own ++ before)) table skip) :
    ∀ skip ∈ own ++ later, LeadsBack tables (own ++ later) skip := by
  -- The skips before a place lead back; this goes on from each place to the next.
  have hb (before after : List Skip) (hs : later = before ++ after) :
      ∀ skip ∈ own ++ before, LeadsBack tables (own ++ later) skip := by
    induction before using List.reverseRecOn generalizing after with
    | nil =>
      intro skip hm
      obtain ⟨table, ht, defect, hd, rfl, -⟩ := ho skip (by simpa using hm)
      exact .own ht hd
    | append_singleton before last ih =>
      have hs' : later = before ++ last :: after := by simpa using hs
      have hi := ih (last :: after) hs'
      intro skip hm
      rw [← List.append_assoc, List.mem_append, List.mem_singleton] at hm
      rcases hm with hm | rfl
      · exact hi skip hm
      · obtain ⟨table, -, _, part, _, -, ⟨-, hr⟩, -, rfl, -⟩ := hl before skip after hs'
        have hsub : own ++ before ⊆ own ++ later := by simp [hs']
        obtain ⟨cause, hc, hcn⟩ := List.mem_map.mp hr
        refine .step (List.mem_map.mpr ⟨cause, hsub hc, hcn⟩) fun other hom hon => ?_
        have he : other = cause := List.inj_on_of_nodup_map hn hom (hsub hc) (hon.trans hcn.symm)
        exact hi other (he ▸ hc)
  exact hb later [] (by simp)

end Skip

namespace Script

variable {settings : Settings} {schema : Schema}

/-- With skips a script lists first the tables with a defect, in declared order and with the message
of the defect. Each table that it lists later has a definition and follows from the tables listed
before it. So each skip leads back to a defect. -/
theorem skipped_leads_back {c : Catalog} (hs : c.schema = .ok schema)
    (hp : settings.onDefect = .skip) :
    ∃ script own later, ofSchema settings schema = .ok script ∧ script.skipped = own ++ later ∧
      List.Forall₂ Skip.IsOwn (schema.tables.filter (·.isDefective)) own ∧
      (∀ before skip after, later = before ++ skip :: after → ∃ table ∈ schema.tables,
        (∃ definition, table.define = .ok definition) ∧
        Skip.Follows (Skip.names (own ++ before)) table skip) ∧
      ∀ skip ∈ script.skipped, Skip.LeadsBack schema.tables script.skipped skip := by
  have hw := Catalog.schema_wellFormed hs
  obtain ⟨later, hl, he⟩ :=
    Skip.spread_explained (Skip.defective schema.tables) (Skip.drafts schema.tables)
  have hn := (List.nodup_append.mp ((Skip.select_perm schema.tables).nodup_iff.mpr hw.nodup)).1
  rw [Skip.select, hl] at hn
  have ho := Skip.forall₂_defective schema.tables
  have hf : ∀ before skip after, later = before ++ skip :: after → ∃ table ∈ schema.tables,
      (∃ definition, table.define = .ok definition) ∧
      Skip.Follows (Skip.names (Skip.defective schema.tables ++ before)) table skip := by
    rintro before skip after rfl
    obtain ⟨draft, hd, hk⟩ := he.middle
    obtain ⟨ht, hdef⟩ := Skip.mem_drafts.mp hd
    rw [← Skip.names_append, Skip.following?_eq_some_iff] at hk
    exact ⟨draft.table, ht, ⟨draft.definition, hdef⟩, hk⟩
  refine ⟨leavingOut settings schema, Skip.defective schema.tables, later, ofSchema_skip hp,
    hl, ho, hf, ?_⟩
  have hown :
      ∀ skip ∈ Skip.defective schema.tables, ∃ table ∈ schema.tables, Skip.IsOwn table skip := by
    intro skip hm
    obtain ⟨table, ht, hi⟩ := exists_left_of_mem ho hm
    exact ⟨table, List.mem_of_mem_filter ht, hi⟩
  have hlater : ∀ before skip after, later = before ++ skip :: after → ∃ table ∈ schema.tables,
      Skip.Follows (Skip.names (Skip.defective schema.tables ++ before)) table skip := by
    intro before skip after hsp
    obtain ⟨table, ht, -, hk⟩ := hf before skip after hsp
    exact ⟨table, ht, hk⟩
  have hb := Skip.leadsBack_of_follows hn hown hlater
  rw [← hl] at hb
  exact hb

/-- Here `B` and `C` refer to each other, and `C` also to `A`, which has two primary keys. -/
def hangingCycle : Catalog where
  columns := ["A", "B", "C"].map Catalog.sampleColumn
  primaryKeys := [⟨"A", "P", "Id", 1⟩, ⟨"A", "Q", "Id", 1⟩]
  foreignKeys := [Catalog.sampleReference "K" "B" "C", Catalog.sampleReference "L" "C" "B",
    Catalog.sampleReference "M" "C" "A"]

theorem schema_hangingCycle :
    hangingCycle.schema = .ok ⟨hangingCycle.tables, hangingCycle.foreignKeyNames, [], []⟩ := by
  have hd : hangingCycle.defect? = none := by cbv
  simp only [Catalog.schema, hd]
  rfl

/-- The first pass leaves `C` out for its second part, since `B` is not skipped yet, and the next
one leaves out `B`. -/
theorem skipped_leads_back_sample : ∃ schema script, hangingCycle.schema = .ok schema ∧
    skipping.onDefect = .skip ∧
    ofSchema skipping schema = .ok script ∧
    script.skipped =
      [⟨"A", .defect (.secondPrimaryKey "A" "P" "Q")⟩, ⟨"C", .reference "A" "M"⟩,
        ⟨"B", .reference "C" "K"⟩] ∧
    ∀ skip ∈ script.skipped, Skip.LeadsBack schema.tables script.skipped skip := by
  have hp : skipping.onDefect = .skip := rfl
  obtain ⟨script, -, -, h, -, -, -, hl⟩ := skipped_leads_back schema_hangingCycle hp
  refine ⟨_, script, schema_hangingCycle, hp, h, ?_, hl⟩
  obtain ⟨tables, ht, hs⟩ : ∃ tables, hangingCycle.tables = tables ∧ (Skip.select tables).left =
      [⟨"A", .defect (.secondPrimaryKey "A" "P" "Q")⟩, ⟨"C", .reference "A" "M"⟩,
        ⟨"B", .reference "C" "K"⟩] := ⟨_, by cbv, by decide +kernel⟩
  rw [ofSchema_skip hp, ht] at h
  cases h
  exact hs

end Script
end CatalogDdl
