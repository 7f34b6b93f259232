import CatalogDdl.Proofs.Files.Same
import CatalogDdl.Proofs.Files.Steps

/-!
# Trees without links

Where there is nothing to follow, steps go down by their names and up again, and where they lead is
said without the tree. The tidy form of a path then leads where the path does.
-/
namespace CatalogDdl

namespace Path

variable {path tidied name step : String}

/-- Where a step goes if it meets no link. -/
def beyond (place : List String) (step : String) : List String :=
  if isIdle step then place else if step = ".." then place.dropLast else place ++ [step]

theorem beyond_of_isIdle (h : isIdle step = true) (place : List String) :
    beyond place step = place :=
  if_pos h

theorem beyond_of_down (hi : isIdle step = false) (hu : step ≠ "..") (place : List String) :
    beyond place step = place ++ [step] := by
  simp [beyond, hi, hu]

/-- Steps that go nowhere may be left out. -/
theorem foldl_beyond_filter {keeps : String → Bool}
    (h : ∀ step, keeps step = false → isIdle step = true) (steps place : List String) :
    (steps.filter keeps).foldl beyond place = steps.foldl beyond place := by
  induction steps generalizing place with
  | nil => rfl
  | cons step rest ih =>
    cases hk : keeps step with
    | true => rw [List.filter_cons_of_pos hk, List.foldl_cons, List.foldl_cons, ih]
    | false =>
      rw [List.filter_cons_of_neg (by simp [hk]), ih, List.foldl_cons, beyond_of_isIdle (h step hk)]

theorem foldl_beyond_dropWhile {drops : String → Bool}
    (h : ∀ step, drops step = true → isIdle step = true) (steps place : List String) :
    (steps.dropWhile drops).foldl beyond place = steps.foldl beyond place := by
  induction steps with
  | nil => rfl
  | cons step rest ih =>
    cases hd : drops step with
    | true => rw [List.dropWhile_cons_of_pos hd, ih, List.foldl_cons, beyond_of_isIdle (h step hd)]
    | false => rw [List.dropWhile_cons_of_neg (by simp [hd])]

theorem isAbsolute_append_slash {base : String} (h : base ≠ "") (name : String) :
    isAbsolute (base ++ "/" ++ name) = isAbsolute base := by
  obtain ⟨c, rest, hc⟩ := List.exists_cons_of_ne_nil (mt String.toList_eq_nil_iff.mp h)
  simp [isAbsolute, hc]

/-- Without their empty steps some steps of a path go where they went. -/
theorem foldl_steps_intercalate {parts : List String} (h : parts.Sublist (steps path))
    (place : List String) : (steps ("/".intercalate (parts.filter (· ≠ "")))).foldl beyond place =
      parts.foldl beyond place := by
  have hu : ∀ part ∈ parts.filter (· ≠ ""), Unslashed part := fun part hm =>
    unslashed_of_mem_steps (h.mem (List.mem_of_mem_filter hm))
  have he : ∀ step : String, decide (step ≠ "") = false → isIdle step = true := by simp [isIdle]
  rw [← foldl_beyond_filter he parts]
  generalize parts.filter (· ≠ "") = parts at hu ⊢
  cases parts with
  | nil => rfl
  | cons first rest => rw [steps_intercalate hu (List.cons_ne_nil first rest)]

theorem isAbsolute_intercalate {first : String} {rest : List String} (hf : Unslashed first)
    (hn : first ≠ "") : isAbsolute ("/".intercalate (first :: rest)) = false := by
  obtain ⟨c, tail, hc⟩ := List.exists_cons_of_ne_nil (mt String.toList_eq_nil_iff.mp hn)
  have hs : c ≠ '/' := by
    rintro rfl
    exact hf (by simp [hc])
  cases rest with
  | nil => simp [isAbsolute, hc, hs]
  | cons next rest => simp [String.intercalate_cons_cons, isAbsolute, hc, hs]

/-- The tidy form of a path starts where the path starts and goes where it goes. -/
theorem beyond_tidy (h : tidy? path = some tidied) : isAbsolute tidied = isAbsolute path ∧
    ∀ place, (steps tidied).foldl beyond place = (steps path).foldl beyond place := by
  unfold tidy? at h
  split at h
  · rename_i ha
    cases h
    have hs := steps_append_slash "" ("/".intercalate ((steps path).filter (· ≠ "")))
    rw [String.empty_append] at hs
    refine ⟨by rw [ha]; simp [isAbsolute], fun place => ?_⟩
    rw [hs, List.foldl_append, foldl_steps_intercalate (.refl _)]
    rfl
  · rename_i ha
    rw [Bool.not_eq_true] at ha
    have hd := (steps path).dropWhile_sublist fun step => decide (step = ".")
    have hg := foldl_beyond_dropWhile
      (by simp [isIdle] : ∀ step : String, decide (step = ".") = true → _) (steps path)
    generalize (steps path).dropWhile (fun step => decide (step = ".")) = rest at h hd hg
    split at h
    · cases h
    · rename_i hn
      cases h
      refine ⟨?_, fun place => (foldl_steps_intercalate hd place).trans (hg place)⟩
      rw [ha]
      cases rest with
      | nil => rfl
      | cons first rest =>
        have hf : first ≠ "" := fun hf => hn rest (hf ▸ rfl)
        rw [List.filter_cons_of_pos (by simpa using hf)]
        exact isAbsolute_intercalate (unslashed_of_mem_steps (hd.mem List.mem_cons_self)) hf

end Path

namespace FileTree

variable {tree : FileTree} {spot last : Spot} {path input name : String}
  {place there steps : List String}

/-- There are no links, no file stands at two places, and what stands in the tree has a name. -/
structure Plain (tree : FileTree) : Prop where
  unlinked : ∀ place target, tree.node? place ≠ some (.link target)
  once : ∀ place there number, tree.node? place = some (.file number) →
    tree.node? there = some (.file number) → place = there
  named : ∀ entry ∈ tree.entries, ∀ step ∈ entry.1,
    Path.Unslashed step ∧ Path.isIdle step = false ∧ step ≠ ".."

/-- A name in a folder is that of an entry of the tree. -/
theorem exists_entry_of_mem_names (h : name ∈ tree.names place) :
    ∃ node, (place ++ [name], node) ∈ tree.entries := by
  obtain ⟨⟨here, node⟩, he, hl⟩ := List.mem_filterMap.mp h
  dsimp only at hl
  split at hl
  · subst place
    obtain ⟨front, rfl⟩ := List.getLast?_eq_some_iff.mp hl
    exact ⟨node, by simpa using he⟩
  · cases hl

theorem Leads.place_eq (h : tree.Leads spot steps last) (hp : tree.Plain) :
    last.place = steps.foldl Path.beyond spot.place := by
  induction h with
  | done => rfl
  | stay _ hi _ ih => rw [ih, List.foldl_cons, Path.beyond_of_isIdle hi]
  | up _ _ ih => exact ih
  | down _ hn _ _ ih => rw [ih, List.foldl_cons, Path.beyond_of_down hn.not_idle hn.ne_up]
  | link _ _ ht => exact absurd ht (hp.unlinked _ _)

theorem ne_empty_of_resolve (h : tree.resolve path = .ok place) : path ≠ "" := by
  rintro rfl
  cases h

theorem Plain.resolve_eq (hp : tree.Plain) (h : tree.resolve path = .ok place) :
    place = (Path.steps path).foldl Path.beyond (tree.origin path).place := by
  obtain ⟨-, links, hl⟩ := resolve_eq_ok_iff.mp h
  exact hl.place_eq hp

theorem Plain.same_iff (hp : tree.Plain) : tree.Same place there ↔ place = there := by
  refine ⟨?_, fun h => .inl h⟩
  rintro (h | ⟨number, hf, ht⟩)
  · exact h
  · exact hp.once _ _ _ hf ht

/-- A name behind a slash leads right below the place that the path in front goes to. -/
theorem Plain.resolve_append_slash_eq (hp : tree.Plain) (hu : Path.Unslashed name)
    (hd : Path.isIdle name = false) (hn : name ≠ "..") (he : input ≠ "")
    (h : tree.resolve (input ++ "/" ++ name) = .ok place) :
    place = (Path.steps input).foldl Path.beyond (tree.origin input).place ++ [name] := by
  rw [hp.resolve_eq h, Path.steps_append_slash, Path.steps_of_unslashed hu, List.foldl_append,
    origin, origin, Path.isAbsolute_append_slash he]
  exact Path.beyond_of_down hd hn _

/-- A name that is joined to a path leads right below the place that the path goes to. -/
theorem Plain.resolve_join_eq (hp : tree.Plain) (hu : Path.Unslashed name)
    (hd : Path.isIdle name = false) (hn : name ≠ "..")
    (h : tree.resolve (Path.join input name) = .ok place) :
    place = (Path.into input).foldl Path.beyond (tree.origin input).place ++ [name] := by
  rw [hp.resolve_eq h, Path.steps_join input hu, List.foldl_append, origin, origin,
    Path.isAbsolute_join input hu]
  exact Path.beyond_of_down hd hn _

end FileTree
end CatalogDdl
