import CatalogDdl.Proofs.Files.Walk

/-!
# Writing files

Folders are only made where nothing stood. After that a file is given new bytes, or it is made, and
the folders and links stay as they are. What differs then is one file, at whatever places it stands.
-/
namespace CatalogDdl.FileTree

variable {tree made written third : FileTree} {spot next last : Spot} {place there : List String}
  {node : Node} {number : Nat} {bytes : ByteArray} {path step : String} {steps : List String}

theorem lookup_filter_ne (entries : List (List String × Node)) (h : there ≠ place) :
    (entries.filter fun entry => entry.1 ≠ place).lookup there = entries.lookup there := by
  induction entries with
  | nil => rfl
  | cons entry rest ih =>
    obtain ⟨here, node⟩ := entry
    by_cases hp : here = place
    · subst hp
      have ho : (there == here) = false := by simpa using h
      simpa [List.lookup_cons, ho] using ih
    · simp only [List.filter_cons, ne_eq, hp, not_false_eq_true, decide_true, if_true,
        List.lookup_cons, ih]

theorem node?_put_self (tree : FileTree) (node : Node) (h : place ≠ []) :
    (tree.put place node).node? place = some node := by
  simp [put, node?, h]

theorem node?_put_of_ne (tree : FileTree) (node : Node) (h : there ≠ place) :
    (tree.put place node).node? there = tree.node? there := by
  simp only [node?, put, List.lookup_cons, show (there == place) = false by simpa using h,
    lookup_filter_ne _ h]

theorem ne_nil_of_node?_eq_none (h : tree.node? place = none) : place ≠ [] := by
  rintro rfl
  cases h

@[simp] theorem node?_setFile (tree : FileTree) (number : Nat) (file : File) (place : List String) :
    (tree.setFile number file).node? place = tree.node? place := rfl

@[simp] theorem file_setFile_self (tree : FileTree) (number : Nat) (file : File) :
    (tree.setFile number file).file number = file := by simp [setFile]

theorem file_setFile_of_ne (tree : FileTree) {number other : Nat} (file : File)
    (h : other ≠ number) : (tree.setFile number file).file other = tree.file other := by
  simp [setFile, h]

theorem mem_entries_of_node? (h : tree.node? place = some node) (hp : place ≠ []) :
    (place, node) ∈ tree.entries := by
  rw [node?, if_neg hp] at h
  obtain ⟨before, after, he, -⟩ := List.lookup_eq_some_iff.mp h
  simp [he]

/-- The fresh number is greater than that of every file in the tree. -/
theorem lt_fresh (h : tree.node? place = some (.file number)) : number < tree.fresh := by
  have hp : place ≠ [] := by
    rintro rfl
    cases h
  have hm := mem_entries_of_node? h hp
  unfold fresh
  generalize tree.entries = entries at hm ⊢
  induction entries with
  | nil => cases hm
  | cons entry rest ih =>
    rw [List.foldr_cons]
    rcases List.mem_cons.mp hm with rfl | hm
    · exact Nat.lt_of_succ_le (Nat.le_max_right _ _)
    · have hr := ih hm
      split
      · exact Nat.lt_of_lt_of_le hr (Nat.le_max_left _ _)
      · exact hr

theorem node?_ne_fresh (tree : FileTree) (place : List String) :
    tree.node? place ≠ some (.file tree.fresh) := fun h => Nat.lt_irrefl _ (lt_fresh h)

/-- What stood in the tree still stands there, and what came to it are folders. -/
structure Grown (tree made : FileTree) : Prop where
  start : made.start = tree.start
  file : made.file = tree.file
  node? : ∀ place, made.node? place = tree.node? place ∨
    tree.node? place = none ∧ made.node? place = some (.folder {})

theorem Grown.refl (tree : FileTree) : Grown tree tree := ⟨rfl, rfl, fun _ => .inl rfl⟩

theorem Grown.trans (h : Grown tree made) (hm : Grown made third) : Grown tree third where
  start := hm.start.trans h.start
  file := hm.file.trans h.file
  node? place := by
    rcases hm.node? place with ht | ⟨hn, ht⟩
    · rw [ht]
      exact h.node? place
    · rcases h.node? place with hs | ⟨-, hs⟩
      · exact .inr ⟨hs ▸ hn, ht⟩
      · rw [hn] at hs
        cases hs

theorem Grown.node?_eq_file_iff (h : Grown tree made) :
    made.node? place = some (.file number) ↔ tree.node? place = some (.file number) := by
  rcases h.node? place with hn | ⟨hn, hm⟩
  · rw [hn]
  · simp [hn, hm]

theorem Grown.node?_eq_none (h : Grown tree made) (hn : made.node? place = none) :
    tree.node? place = none := by
  rcases h.node? place with hm | ⟨hm, -⟩
  · exact hm.symm.trans hn
  · exact hm

theorem grown_put_folder (h : tree.node? place = none) :
    Grown tree (tree.put place (.folder {})) := by
  refine ⟨rfl, rfl, fun there => ?_⟩
  by_cases ht : there = place
  · subst ht
    exact .inr ⟨h, node?_put_self tree _ (ne_nil_of_node?_eq_none h)⟩
  · exact .inl (node?_put_of_ne tree _ ht)

/-- Making folders changes nothing else, whether or not it gets to the end. -/
theorem grown_of_makeFolders
    (h : tree.makeFolders spot steps = .ok made ∨ tree.makeFolders spot steps = .error made) :
    Grown tree made := by
  induction steps generalizing tree spot with
  | nil =>
    rcases h with h | h <;> cases h
    exact .refl _
  | cons step rest ih =>
    have hs (h : (.error tree : Except FileTree FileTree) = .ok made ∨
        (.error tree : Except FileTree FileTree) = .error made) : Grown tree made := by
      rcases h with h | h <;> cases h
      exact .refl _
    rw [makeFolders] at h
    split at h
    · exact hs h
    · split at h
      · exact ih h
      · exact hs h
      · split at h
        · exact (grown_put_folder ‹_›).trans (ih h)
        · exact hs h

theorem grown_of_makeAbove
    (h : tree.makeAbove path = .ok made ∨ tree.makeAbove path = .error made) :
    Grown tree made := by
  unfold makeAbove at h
  dsimp only at h
  split at h
  · exact grown_of_makeFolders h
  · rcases h with h | h <;> cases h
    exact .refl _

/-- No folder is made as far as the steps already lead to one. -/
theorem makeFolders_append (h : tree.Leads spot steps next) (hl : tree.IsFolder next.place)
    (rest : List String) : tree.makeFolders spot (steps ++ rest) = tree.makeFolders next rest := by
  induction steps generalizing spot with
  | nil =>
    cases h
    rfl
  | cons step steps ih =>
    have hc : tree.Leads spot ([step] ++ steps) next := h
    obtain ⟨first, hs, hr⟩ := hc.split
    obtain ⟨rights, hn⟩ := hr.isFolder_of_isFolder hl
    simp only [List.cons_append, makeFolders, walk_eq_ok_iff.mpr hs, hn]
    exact ih hr

theorem makeFolders_of_leads (h : tree.Leads spot steps last) (hl : tree.IsFolder last.place) :
    tree.makeFolders spot steps = .ok tree := by
  simpa [makeFolders] using makeFolders_append h hl []

/-- A folder is made where a step of its own leads down to nothing. -/
theorem makeFolders_new (h : tree.Leads spot [step] next) (hp : next.place = spot.place ++ [step])
    (hn : tree.node? next.place = none) (ht : tree.takesNew spot.place = true)
    (rest : List String) :
    tree.makeFolders spot (step :: rest) =
      (tree.put next.place (.folder {})).makeFolders next rest := by
  simp only [makeFolders, walk_eq_ok_iff.mpr h, hn]
  exact if_pos ⟨hp, ht⟩

/-- Storing gives a file new bytes where one may be written, or makes one where nothing stood. -/
theorem store_cases (h : tree.store place bytes = some written) :
    (∃ number, tree.node? place = some (.file number) ∧ (tree.file number).rights.write = true ∧
      written = tree.setFile number { tree.file number with bytes }) ∨
    (tree.node? place = none ∧ tree.takesNew place.dropLast = true ∧
      written = (tree.put place (.file tree.fresh)).setFile tree.fresh { bytes }) := by
  unfold store at h
  split at h
  · rename_i number hn
    dsimp only at h
    split at h
    · exact .inl ⟨number, hn, ‹_›, (Option.some.inj h).symm⟩
    · cases h
  · cases h
  · rename_i hn
    split at h
    · exact .inr ⟨hn, ‹_›, (Option.some.inj h).symm⟩
    · cases h

theorem node?_store_new (h : tree.node? place = none) (file : File) :
    ((tree.put place (.file tree.fresh)).setFile tree.fresh file).node? place =
      some (.file tree.fresh) :=
  node?_put_self tree _ (ne_nil_of_node?_eq_none h)

theorem sameWays_store (h : tree.store place bytes = some written) : SameWays tree written := by
  rcases store_cases h with ⟨number, -, -, rfl⟩ | ⟨hn, -, rfl⟩
  · exact ⟨rfl, fun _ => rfl⟩
  · refine ⟨rfl, fun there => ?_⟩
    by_cases ht : there = place
    · subst ht
      simp only [way?, node?_store_new hn, hn]
    · simp only [way?, node?_setFile, node?_put_of_ne tree _ ht]

/-- The second tree is the first one after the bytes were written to the path, which leads to the
place of the file with the number. The file was there before, or it is new. -/
structure Wrote (tree : FileTree) (path : String) (bytes : ByteArray) (place : List String)
    (number : Nat) (written : FileTree) : Prop where
  leads : written.resolve path = .ok place
  stands : written.node? place = some (.file number)
  holds : (written.file number).bytes = bytes
  before : tree.node? place = some (.file number) ∨
    tree.node? place = none ∧ ∀ there, tree.node? there ≠ some (.file number)
  files : ∀ other, other ≠ number → written.file other = tree.file other
  places : ∀ there, there ≠ place → written.node? there = tree.node? there ∨
    tree.node? there = none ∧ written.node? there = some (.folder {})

/-- Writing makes the folders above a path and then stores the bytes where the path leads. -/
theorem write_eq_ok_iff : tree.write path bytes = .ok written ↔ ∃ made place,
    tree.makeAbove path = .ok made ∧ made.resolve path = .ok place ∧
      made.store place bytes = some written := by
  rw [write, bind_eq_ok_iff]
  refine exists_congr fun made => ?_
  rw [exists_and_left, and_congr_right_iff]
  intro _
  cases made.resolve path with
  | error fault => simp
  | ok place => cases hs : made.store place bytes <;> simp [hs]

/-- What was written is at the end of the path, and no other file has changed. -/
theorem exists_wrote (h : tree.write path bytes = .ok written) :
    ∃ place number, tree.Wrote path bytes place number written := by
  obtain ⟨made, place, hm, hr, hs⟩ := write_eq_ok_iff.mp h
  have hg := grown_of_makeAbove (.inl hm)
  have hl := (sameWays_store hs).resolve_eq_ok_iff.mpr hr
  rcases store_cases hs with ⟨number, hn, -, rfl⟩ | ⟨hn, -, rfl⟩
  · refine ⟨place, number, hl, hn, by simp, .inl (hg.node?_eq_file_iff.mp hn), fun other ho => ?_,
      fun there _ => hg.node? there⟩
    rw [file_setFile_of_ne _ _ ho, hg.file]
  · refine ⟨place, made.fresh, hl, node?_store_new hn _, by simp, .inr ⟨hg.node?_eq_none hn,
      fun there ht => made.node?_ne_fresh there (hg.node?_eq_file_iff.mpr ht)⟩, fun other ho => ?_,
      fun there ht => ?_⟩
    · rw [file_setFile_of_ne _ _ ho]
      exact congrFun hg.file other
    · rw [node?_setFile, node?_put_of_ne made _ ht]
      exact hg.node? there

/-- A failed write leaves every file as it was. -/
theorem grown_of_write_eq_error (h : tree.write path bytes = .error made) : Grown tree made := by
  rcases bind_eq_error_iff.mp h with hm | ⟨grown, hm, h⟩
  · exact grown_of_makeAbove (.inr hm)
  · have hg := grown_of_makeAbove (.inl hm)
    split at h
    · cases h
      exact hg
    · split at h
      · cases h
      · cases h
        exact hg

end CatalogDdl.FileTree
