import CatalogDdl.Files.Tree
import CatalogDdl.Proofs.Fallible

/-!
# Following steps

Where steps lead is said one step at a time. It only depends on the folders and links of a tree and
on the rights to its folders, so paths lead to the same places in all trees that share these.
-/
namespace CatalogDdl

/-- The step is a name: it goes down and is not too long. -/
structure Path.IsName (step : String) : Prop where
  not_idle : isIdle step = false
  ne_up : step ≠ ".."
  short : step.utf8ByteSize ≤ 255

theorem Path.isName_iff {step : String} : IsName step ↔
    isIdle step = false ∧ step ≠ ".." ∧ step.utf8ByteSize ≤ 255 :=
  ⟨fun h => ⟨h.1, h.2, h.3⟩, fun h => ⟨h.1, h.2.1, h.2.2⟩⟩

instance : DecidablePred Path.IsName := fun _ => decidable_of_iff' _ Path.isName_iff

namespace FileTree

variable {tree other : FileTree} {spot next last : Spot} {place base : List String} {links : Nat}
  {step path : String} {steps rest : List String}

def IsFolder (tree : FileTree) (place : List String) : Prop :=
  ∃ rights, tree.node? place = some (.folder rights)

theorem folder_eq_ok_iff {rights : Rights} :
    tree.folder place = .ok rights ↔ tree.node? place = some (.folder rights) := by
  unfold folder
  cases tree.node? place with
  | none => simp
  | some node => cases node <;> simp

theorem enter_eq_ok_iff : tree.enter place step = .ok () ↔
    ∃ rights, tree.node? place = some (.folder rights) ∧ (step = "" ∨ rights.enter = true) := by
  simp [enter, bind_eq_ok_iff, folder_eq_ok_iff, or_iff_not_imp_left]

theorem isFolder_of_enter (h : tree.enter place step = .ok ()) : tree.IsFolder place := by
  obtain ⟨rights, hr, -⟩ := enter_eq_ok_iff.mp h
  exact ⟨rights, hr⟩

/-- The spot that steps lead to from another. A link is followed by the steps of its path. -/
inductive Leads (tree : FileTree) : Spot → List String → Spot → Prop
  | done (spot : Spot) : Leads tree spot [] spot
  | stay {place : List String} {links : Nat} {step : String} {rest : List String} {last : Spot}
      (he : tree.enter place step = .ok ()) (hi : Path.isIdle step = true)
      (hl : Leads tree ⟨place, links⟩ rest last) : Leads tree ⟨place, links⟩ (step :: rest) last
  | up {place : List String} {links : Nat} {rest : List String} {last : Spot}
      (he : tree.enter place ".." = .ok ()) (hl : Leads tree ⟨place.dropLast, links⟩ rest last) :
      Leads tree ⟨place, links⟩ (".." :: rest) last
  | down {place : List String} {links : Nat} {step : String} {rest : List String} {last : Spot}
      (he : tree.enter place step = .ok ()) (hn : Path.IsName step)
      (ht : ∀ target, tree.node? (place ++ [step]) ≠ some (.link target))
      (hl : Leads tree ⟨place ++ [step], links⟩ rest last) :
      Leads tree ⟨place, links⟩ (step :: rest) last
  | link {place : List String} {links : Nat} {step target : String} {rest : List String}
      {last : Spot} (he : tree.enter place step = .ok ()) (hn : Path.IsName step)
      (ht : tree.node? (place ++ [step]) = some (.link target))
      (hl : Leads tree ⟨if Path.isAbsolute target then [] else place, links⟩
        (Path.steps target ++ rest) last) : Leads tree ⟨place, links + 1⟩ (step :: rest) last

/-- Where a walk arrives, its steps lead, if they do so from each link on. -/
theorem leads_of_walkBy {follow : List String → List String → Except PathFault Spot}
    (hf : ∀ base steps, follow base steps = .ok last →
      ∃ fewer, links = fewer + 1 ∧ tree.Leads ⟨base, fewer⟩ steps last)
    (h : tree.walkBy links follow place steps = .ok last) :
    tree.Leads ⟨place, links⟩ steps last := by
  induction steps generalizing place with
  | nil =>
    cases h
    exact .done _
  | cons step rest ih =>
    obtain ⟨⟨⟩, he, hs⟩ := bind_eq_ok_iff.mp h
    split at hs
    · exact .stay he ‹_› (ih hs)
    · rename_i hi
      split at hs
      · subst step
        exact .up he (ih hs)
      · rename_i hu
        split at hs
        · cases hs
        · have hn : Path.IsName step := ⟨by simpa using hi, hu, by omega⟩
          split at hs
          · obtain ⟨fewer, rfl, hl⟩ := hf _ _ hs
            exact .link he hn ‹_› hl
          · rename_i ht
            exact .down he hn (fun target hl => ht target hl) (ih hs)

theorem exists_walkBy (tree : FileTree) (links : Nat) :
    ∃ follow, tree.walkWithin links = tree.walkBy links follow := by
  cases links <;> exact ⟨_, rfl⟩

/-- The steps of a walk lead to its result, and every spot that steps lead to is the result of a
walk. -/
theorem walk_eq_ok_iff : tree.walk spot steps = .ok last ↔ tree.Leads spot steps last := by
  constructor
  · obtain ⟨place, links⟩ := spot
    change tree.walkWithin links place steps = .ok last → _
    induction links generalizing place steps with
    | zero => exact leads_of_walkBy nofun
    | succ links ih => exact leads_of_walkBy fun base steps h => ⟨links, rfl, ih base h⟩
  · intro h
    induction h with
    | done spot =>
      obtain ⟨follow, hf⟩ := tree.exists_walkBy spot.links
      simp only [walk, hf, walkBy]
    | @stay place links step rest last he hi _ ih =>
      obtain ⟨follow, hf⟩ := tree.exists_walkBy links
      simp only [walk, hf] at ih ⊢
      rw [walkBy, he]
      simpa only [bind, Except.bind, hi, if_true] using ih
    | @up place links rest last he _ ih =>
      obtain ⟨follow, hf⟩ := tree.exists_walkBy links
      simp only [walk, hf] at ih ⊢
      rw [walkBy, he]
      exact ih
    | @down place links step rest last he hn ht _ ih =>
      obtain ⟨follow, hf⟩ := tree.exists_walkBy links
      simp only [walk, hf] at ih ⊢
      rw [walkBy, he]
      simp only [bind, Except.bind, hn.not_idle, hn.ne_up, Nat.not_lt.mpr hn.short, if_false,
        Bool.false_eq_true]
      exact ih
    | link he hn ht _ ih =>
      simp only [walk, walkWithin] at ih ⊢
      rw [walkBy, he]
      simp only [bind, Except.bind, hn.not_idle, hn.ne_up, Nat.not_lt.mpr hn.short, if_false,
        Bool.false_eq_true, ht]
      exact ih

namespace Leads

/-- Steps lead on from where others have led. -/
theorem trans (h : tree.Leads spot steps next) (hr : tree.Leads next rest last) :
    tree.Leads spot (steps ++ rest) last := by
  induction h with
  | done => exact hr
  | stay he hi _ ih => exact .stay he hi (ih hr)
  | up he _ ih => exact .up he (ih hr)
  | down he hn ht _ ih => exact .down he hn ht (ih hr)
  | link he hn ht _ ih =>
    have hl := ih hr
    rw [List.append_assoc] at hl
    exact .link he hn ht hl

/-- On the way of steps lies the spot to which the first ones lead. -/
theorem split (h : tree.Leads spot (steps ++ rest) last) :
    ∃ next, tree.Leads spot steps next ∧ tree.Leads next rest last := by
  generalize hs : steps ++ rest = all at h
  induction h generalizing steps with
  | done spot =>
    obtain ⟨rfl, rfl⟩ := List.append_eq_nil_iff.mp hs
    exact ⟨spot, .done _, .done _⟩
  | stay he hi hl ih =>
    rcases List.append_eq_cons_iff.mp hs with ⟨rfl, rfl⟩ | ⟨steps, rfl, rfl⟩
    · exact ⟨_, .done _, .stay he hi hl⟩
    · obtain ⟨next, hn, hr⟩ := ih rfl
      exact ⟨next, .stay he hi hn, hr⟩
  | up he hl ih =>
    rcases List.append_eq_cons_iff.mp hs with ⟨rfl, rfl⟩ | ⟨steps, rfl, rfl⟩
    · exact ⟨_, .done _, .up he hl⟩
    · obtain ⟨next, hn, hr⟩ := ih rfl
      exact ⟨next, .up he hn, hr⟩
  | down he hn ht hl ih =>
    rcases List.append_eq_cons_iff.mp hs with ⟨rfl, rfl⟩ | ⟨steps, rfl, rfl⟩
    · exact ⟨_, .done _, .down he hn ht hl⟩
    · obtain ⟨next, hs, hr⟩ := ih rfl
      exact ⟨next, .down he hn ht hs, hr⟩
  | link he hn ht hl ih =>
    rcases List.append_eq_cons_iff.mp hs with ⟨rfl, rfl⟩ | ⟨steps, rfl, rfl⟩
    · exact ⟨_, .done _, .link he hn ht hl⟩
    · obtain ⟨next, hs, hr⟩ := ih (List.append_assoc _ _ _)
      exact ⟨next, .link he hn ht hs, hr⟩

theorem unique (h : tree.Leads spot steps next) (hl : tree.Leads spot steps last) :
    next = last := by
  rw [← walk_eq_ok_iff] at h hl
  exact Except.ok.inj (h.symm.trans hl)

/-- Steps are only taken from a folder. -/
theorem isFolder (h : tree.Leads spot (step :: rest) last) : tree.IsFolder spot.place := by
  cases h <;> exact isFolder_of_enter ‹_›

/-- Steps that lead to a folder start in one. -/
theorem isFolder_of_isFolder (h : tree.Leads spot steps last) (hl : tree.IsFolder last.place) :
    tree.IsFolder spot.place := by
  cases steps with
  | nil =>
    cases h
    exact hl
  | cons => exact h.isFolder

end Leads

theorem resolve_eq_ok_iff : tree.resolve path = .ok place ↔ Path.check path = .ok () ∧
    ∃ links, tree.Leads (tree.origin path) (Path.steps path) ⟨place, links⟩ := by
  simp only [resolve, bind_eq_ok_iff, walk_eq_ok_iff, pure, Except.pure, Except.ok.injEq]
  constructor
  · rintro ⟨⟨⟩, hc, spot, hl, rfl⟩
    exact ⟨hc, spot.links, hl⟩
  · rintro ⟨hc, links, hl⟩
    exact ⟨(), hc, _, hl, rfl⟩

/-- The same nodes stand at the same places, and relative paths start at one place. -/
structure SameNodes (tree other : FileTree) : Prop where
  start : other.start = tree.start
  node? : ∀ place, other.node? place = tree.node? place

namespace SameNodes

variable (h : SameNodes tree other)
include h

theorem folder_eq (place : List String) : other.folder place = tree.folder place := by
  rw [folder, folder, h.node?]

theorem walkBy_eq (links : Nat) (follow : List String → List String → Except PathFault Spot)
    (place steps : List String) :
    other.walkBy links follow place steps = tree.walkBy links follow place steps := by
  induction steps generalizing place with
  | nil => rfl
  | cons step rest ih => simp only [walkBy, enter, h.folder_eq, h.node?, ih]

/-- Trees with the same nodes are walked alike. -/
theorem walkWithin_eq (links : Nat) : other.walkWithin links = tree.walkWithin links := by
  induction links with
  | zero =>
    funext place steps
    exact h.walkBy_eq _ _ _ _
  | succ links ih =>
    funext place steps
    rw [walkWithin, ih]
    exact h.walkBy_eq _ _ _ _

theorem resolve_eq (path : String) : other.resolve path = tree.resolve path := by
  simp only [resolve, walk, origin, h.start, h.walkWithin_eq]

theorem isFolder_eq (path : String) : other.isFolder path = tree.isFolder path := by
  rw [isFolder, isFolder, h.resolve_eq, funext h.folder_eq]

end SameNodes

/-- What stands at a place, unless it is a file. -/
def way? (tree : FileTree) (place : List String) : Option Node :=
  match tree.node? place with
  | some (.file _) => none
  | node => node

theorem node?_eq_folder_iff {rights : Rights} :
    tree.node? place = some (.folder rights) ↔ tree.way? place = some (.folder rights) := by
  unfold way?
  split <;> simp [*]

theorem node?_eq_link_iff {target : String} :
    tree.node? place = some (.link target) ↔ tree.way? place = some (.link target) := by
  unfold way?
  split <;> simp [*]

/-- The trees have the same folders and links, and relative paths start at one place. -/
structure SameWays (tree other : FileTree) : Prop where
  start : other.start = tree.start
  way? : ∀ place, other.way? place = tree.way? place

namespace SameWays

theorem refl (tree : FileTree) : SameWays tree tree := ⟨rfl, fun _ => rfl⟩

theorem symm (h : SameWays tree other) : SameWays other tree :=
  ⟨h.start.symm, fun place => (h.way? place).symm⟩

theorem trans {third : FileTree} (h : SameWays tree other) (ho : SameWays other third) :
    SameWays tree third :=
  ⟨ho.start.trans h.start, fun place => (ho.way? place).trans (h.way? place)⟩

variable (h : SameWays tree other)
include h

theorem node?_eq_folder_iff {rights : Rights} :
    other.node? place = some (.folder rights) ↔ tree.node? place = some (.folder rights) := by
  rw [FileTree.node?_eq_folder_iff, FileTree.node?_eq_folder_iff, h.way?]

theorem node?_eq_link_iff {target : String} :
    other.node? place = some (.link target) ↔ tree.node? place = some (.link target) := by
  rw [FileTree.node?_eq_link_iff, FileTree.node?_eq_link_iff, h.way?]

theorem isFolder_iff : other.IsFolder place ↔ tree.IsFolder place := by
  simp only [IsFolder, h.node?_eq_folder_iff]

theorem enter_eq_ok_iff : other.enter place step = .ok () ↔ tree.enter place step = .ok () := by
  simp only [FileTree.enter_eq_ok_iff, h.node?_eq_folder_iff]

/-- Steps lead to the same spots in both trees. -/
theorem leads (hl : tree.Leads spot steps last) : other.Leads spot steps last := by
  induction hl with
  | done spot => exact .done spot
  | stay he hi _ ih => exact .stay (h.enter_eq_ok_iff.mpr he) hi ih
  | up he _ ih => exact .up (h.enter_eq_ok_iff.mpr he) ih
  | down he hn ht _ ih =>
    exact .down (h.enter_eq_ok_iff.mpr he) hn (fun target =>
      mt h.node?_eq_link_iff.mp (ht target)) ih
  | link he hn ht _ ih =>
    exact .link (h.enter_eq_ok_iff.mpr he) hn (h.node?_eq_link_iff.mpr ht) ih

theorem leads_iff : other.Leads spot steps last ↔ tree.Leads spot steps last :=
  ⟨h.symm.leads, h.leads⟩

theorem origin_eq (path : String) : other.origin path = tree.origin path := by
  rw [origin, origin, h.start]

/-- Every path leads to the same place in both trees. -/
theorem resolve_eq_ok_iff : other.resolve path = .ok place ↔ tree.resolve path = .ok place := by
  simp only [FileTree.resolve_eq_ok_iff, h.origin_eq, h.leads_iff]

theorem takesNew_eq (place : List String) : other.takesNew place = tree.takesNew place := by
  have hf (rights : Rights) : other.folder place = .ok rights ↔ tree.folder place = .ok rights := by
    rw [folder_eq_ok_iff, folder_eq_ok_iff, h.node?_eq_folder_iff]
  unfold takesNew
  cases ht : tree.folder place with
  | ok rights => rw [(hf rights).mpr ht]
  | error fault =>
    cases ho : other.folder place with
    | error fault => rfl
    | ok rights =>
      rw [(hf rights).mp ho] at ht
      cases ht

theorem isFolder_eq (path : String) : other.isFolder path = tree.isFolder path := by
  have hf (tree : FileTree) : tree.isFolder path = true ↔
      ∃ place, tree.resolve path = .ok place ∧ tree.IsFolder place := by
    rw [FileTree.isFolder, isOk_iff]
    simp only [bind_eq_ok_iff, folder_eq_ok_iff, IsFolder]
    exact ⟨fun ⟨rights, place, hr, hf⟩ => ⟨place, hr, rights, hf⟩,
      fun ⟨place, hr, rights, hf⟩ => ⟨rights, place, hr, hf⟩⟩
  rw [Bool.eq_iff_iff, hf, hf]
  simp only [h.resolve_eq_ok_iff, h.isFolder_iff]

end SameWays
end FileTree
end CatalogDdl
