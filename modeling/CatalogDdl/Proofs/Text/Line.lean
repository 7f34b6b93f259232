import CatalogDdl.Text.Lines
import Mathlib.Data.List.Infix

/-!
# Lines and their endings

A text is one line, or a line, a line feed and a text, and its lines are read in this way. With
plain breaks, each of its lines ends with a line feed alone. That changes the text if and only if a
carriage return stands before a line feed in it.
-/
namespace CatalogDdl.Text

/-- Induction over a text line by line. -/
theorem line_induction {motive : List Char → Prop} (last : ∀ l, '\n' ∉ l → motive l)
    (more : ∀ l rest, '\n' ∉ l → motive rest → motive (l ++ '\n' :: rest)) (s : List Char) :
    motive s := by
  induction h : s.length using Nat.strongRecOn generalizing s with
  | ind n ih =>
    by_cases hs : '\n' ∈ s
    · obtain ⟨l, rest, rfl, hl⟩ := List.eq_append_cons_of_mem hs
      refine more l rest hl (ih _ ?_ rest rfl)
      simp only [List.length_append, List.length_cons] at h
      omega
    · exact last s hs

theorem splitOn_of_not_mem {α : Type} [BEq α] [LawfulBEq α] {d : α} {l : List α} (hl : d ∉ l)
    (rest : List α) :
    (l ++ d :: rest).splitOn d = l :: rest.splitOn d := by
  rw [List.splitOn_append_cons_self, List.splitOn_eq_singleton hl, List.singleton_append]

/-- There is one piece more than there are separators. -/
theorem length_splitOn {α : Type} [BEq α] {d : α} (l : List α) :
    (l.splitOn d).length = l.count d + 1 := by
  induction l with
  | nil => simp
  | cons x l ih =>
    rw [List.splitOn_cons_eq_if_modifyHead, List.count_cons]
    split <;> simp [ih]

theorem splitOn_line {l : List Char} (hl : '\n' ∉ l) (rest : List Char) :
    (l ++ '\n' :: rest).splitOn '\n' = l :: rest.splitOn '\n' := splitOn_of_not_mem hl rest

/-- No piece has the character at which a text is split. -/
theorem not_mem_of_mem_splitOn {d : Char} {s piece : List Char} (h : piece ∈ s.splitOn d) :
    d ∉ piece := by
  by_cases hs : d ∈ s
  · obtain ⟨first, rest, hr, hf⟩ := List.eq_append_cons_of_mem hs
    have hl : rest.length < s.length := by
      simp only [hr, List.length_append, List.length_cons]
      omega
    rw [hr, splitOn_of_not_mem hf] at h
    rcases List.mem_cons.mp h with rfl | h
    · exact hf
    · exact not_mem_of_mem_splitOn h
  · rw [List.splitOn_eq_singleton hs, List.mem_singleton] at h
    exact h ▸ hs
termination_by s.length

/-- Splitting a text adds nothing to its pieces. -/
theorem subset_of_mem_splitOn {d : Char} {s piece : List Char} (h : piece ∈ s.splitOn d) :
    piece ⊆ s := by
  have hs (ps : List (List Char)) (hp : piece ∈ ps) : piece ⊆ List.intercalate [d] ps := by
    induction ps with
    | nil => cases hp
    | cons first rest ih =>
      cases rest with
      | nil =>
        rw [List.intercalate_singleton, List.mem_singleton.mp hp]
        exact List.Subset.refl _
      | cons next rest =>
        rw [List.intercalate_cons_cons]
        rcases List.mem_cons.mp hp with rfl | hp
        · exact fun c hc => by simp [hc]
        · exact fun c hc => List.mem_append_right _ (ih hp hc)
  have hi := hs _ h
  rwa [List.intercalate_splitOn] at hi

/-- A character other than the separator joins the last piece of a text. -/
theorem splitOn_concat {d c : Char} {s : List Char} (hc : c ≠ d) : ∃ front last,
    s.splitOn d = front ++ [last] ∧ (s ++ [c]).splitOn d = front ++ [last ++ [c]] := by
  induction s with
  | nil => exact ⟨[], [], List.splitOn_nil _, List.splitOn_eq_singleton (by simpa using hc.symm)⟩
  | cons x s ih =>
    obtain ⟨front, last, hs, hsc⟩ := ih
    rw [List.cons_append, List.splitOn_cons_eq_if_modifyHead, List.splitOn_cons_eq_if_modifyHead,
      hs, hsc]
    by_cases hx : x = d
    · exact ⟨[] :: front, last, by simp [hx], by simp [hx]⟩
    · cases front with
      | nil => exact ⟨[], x :: last, by simp [hx], by simp [hx]⟩
      | cons first rest => exact ⟨(x :: first) :: rest, last, by simp [hx], by simp [hx]⟩

theorem unlines_cons_cons (line next : List Char) (rest : List (List Char)) :
    unlines (line :: next :: rest) = line ++ '\n' :: unlines (next :: rest) := by
  simp [unlines, List.intercalate_cons_cons]

/-- A line feed behind the last line makes each line one with a line feed behind it. -/
theorem flatMap_closed {ls : List (List Char)} (h : ls ≠ []) :
    ls.flatMap (· ++ ['\n']) = unlines ls ++ ['\n'] := by
  induction ls with
  | nil => exact absurd rfl h
  | cons line rest ih =>
    cases rest with
    | nil => simp [unlines]
    | cons next rest =>
      rw [List.flatMap_cons, ih (by simp), unlines_cons_cons]
      simp only [List.append_assoc, List.nil_append, List.cons_append]

theorem dropReturn_cons {c : Char} {s : List Char} (hs : s ≠ []) :
    dropReturn (c :: s) = c :: dropReturn s := by
  obtain ⟨first, rest, rfl⟩ := List.exists_cons_of_ne_nil hs
  simp only [dropReturn, List.getLast?_cons_cons, List.dropLast_cons_cons]
  split <;> rfl

theorem dropReturn_subset (s : List Char) : dropReturn s ⊆ s := by
  rw [dropReturn]
  split
  · exact List.dropLast_subset s
  · exact List.Subset.refl s

/-- The line in front is read without its ending, and then the lines of the rest. -/
theorem lines_line {l : List Char} (hl : '\n' ∉ l) (rest : List Char) :
    lines (l ++ '\n' :: rest) = dropReturn l :: lines rest := by
  obtain ⟨next, more, hs⟩ := List.exists_cons_of_ne_nil (List.splitOn_ne_nil '\n' rest)
  rw [lines, splitOn_line hl, hs, closeLines_cons_cons, lines, hs]

/-- The last line has no ending. -/
theorem lines_of_unbroken {l : List Char} (hl : '\n' ∉ l) :
    lines l = if l.isEmpty then [] else [l] := by
  rw [lines, List.splitOn_eq_singleton hl]
  rfl

theorem unbroken_of_mem_lines {s l : List Char} (h : l ∈ lines s) : '\n' ∉ l := by
  induction s using line_induction with
  | last t ht =>
    rw [lines_of_unbroken ht] at h
    split at h
    · cases h
    · rw [List.mem_singleton.mp h]
      exact ht
  | more first rest hf ih =>
    rw [lines_line hf] at h
    rcases List.mem_cons.mp h with rfl | h
    · exact fun hn => hf (dropReturn_subset first hn)
    · exact ih h

/-- The text with a line feed in place of each carriage return and line feed. -/
def plainBreaks : List Char → List Char
  | '\r' :: '\n' :: rest => '\n' :: plainBreaks rest
  | c :: rest => c :: plainBreaks rest
  | [] => []

@[simp] theorem plainBreaks_nil : plainBreaks [] = [] := rfl

@[simp] theorem plainBreaks_return (rest : List Char) :
    plainBreaks ('\r' :: '\n' :: rest) = '\n' :: plainBreaks rest := by rw [plainBreaks]

theorem plainBreaks_cons {c : Char} {rest : List Char} (h : ¬ ['\r', '\n'] <+: c :: rest) :
    plainBreaks (c :: rest) = c :: plainBreaks rest := by
  rw [plainBreaks]
  rintro tail rfl rfl
  exact h ⟨tail, rfl⟩

theorem length_plainBreaks_le (s : List Char) : (plainBreaks s).length ≤ s.length := by
  fun_induction plainBreaks s with
  | case1 rest ih =>
    simp only [List.length_cons]
    omega
  | case2 c rest _ ih => simpa using ih
  | case3 => simp

/-- Nothing changes in a text without carriage returns before line feeds. -/
theorem plainBreaks_eq_self_iff {s : List Char} : plainBreaks s = s ↔ ¬ ['\r', '\n'] <:+: s := by
  fun_induction plainBreaks s with
  | case1 rest ih =>
    have hl := length_plainBreaks_le rest
    refine iff_of_false (fun h => ?_) (not_not_intro ⟨[], rest, rfl⟩)
    have := congrArg List.length h
    simp only [List.length_cons] at this
    omega
  | case2 c rest h ih =>
    have hp : ¬ ['\r', '\n'] <+: c :: rest := by
      rintro ⟨tail, ht⟩
      cases ht
      exact h tail rfl rfl
    rw [List.infix_cons_iff, List.cons.injEq, ih]
    simp [hp]
  | case3 => simp

/-- The line in front loses the carriage return that belongs to its ending. -/
theorem plainBreaks_line {l : List Char} (hl : '\n' ∉ l) (rest : List Char) :
    plainBreaks (l ++ '\n' :: rest) = dropReturn l ++ '\n' :: plainBreaks rest := by
  induction l with
  | nil => exact plainBreaks_cons (by simp)
  | cons c l ih =>
    rw [List.mem_cons, not_or] at hl
    cases l with
    | nil =>
      by_cases hc : c = '\r'
      · subst hc
        exact plainBreaks_return rest
      · have hd : dropReturn [c] = [c] := by simp [dropReturn, hc]
        rw [hd, List.singleton_append, plainBreaks_cons (by simp [hc, eq_comm]),
          plainBreaks_cons (by simp)]
        rfl
    | cons d l =>
      have hd : '\n' ≠ d := fun h => hl.2 (h ▸ List.mem_cons_self)
      rw [dropReturn_cons (by simp), List.cons_append, plainBreaks_cons (by simp [hd]), ih hl.2]
      rfl

theorem plainBreaks_of_unbroken {l : List Char} (hl : '\n' ∉ l) : plainBreaks l = l :=
  plainBreaks_eq_self_iff.mpr fun h => hl (h.subset (by simp))

theorem getLast?_plainBreaks (s : List Char) : (plainBreaks s).getLast? = s.getLast? := by
  induction s using line_induction with
  | last l hl => rw [plainBreaks_of_unbroken hl]
  | more l rest hl ih => simp [plainBreaks_line hl, List.getLast?_cons, ih]

/-- The lines of a text that does not end with a carriage return. -/
theorem flatMap_dropReturn {s : List Char} (h : s.getLast? ≠ some '\r') :
    (s.splitOn '\n').flatMap (fun piece => dropReturn piece ++ ['\n']) =
      plainBreaks s ++ ['\n'] := by
  induction s using line_induction with
  | last l hl => simp [List.splitOn_eq_singleton hl, plainBreaks_of_unbroken hl, dropReturn, h]
  | more l rest hl ih =>
    have hr : rest.getLast? ≠ some '\r' := by
      intro hr
      simp [List.getLast?_cons, hr] at h
    rw [splitOn_line hl, List.flatMap_cons, ih hr, plainBreaks_line hl]
    simp

end CatalogDdl.Text
