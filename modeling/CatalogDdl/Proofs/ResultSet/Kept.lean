import CatalogDdl.Proofs.ResultSet.Body
import CatalogDdl.Proofs.ResultSet.Layout
import Mathlib.Data.List.ModifyLast

/-!
# What a body keeps of a text

A body has the lines of its text that are no row counts, but for blanks at its ends. Where lines are
left out, others come to stand side by side, yet no row count arises from them. Nor does a line
ending, unless there was a line with two carriage returns at its end. So there is nothing more to
take off a body.
-/
namespace CatalogDdl.ResultSet
open Text

/-- The lines, the first one without the blanks it begins with and the last one without those it
ends with. -/
def trimEnds (ls : List (List Char)) : List (List Char) :=
  (ls.modifyHead trimStart).modifyLast trimEnd

/-- Trimming drops blank lines in front, and blanks of the first line that is kept. -/
theorem filter_splitOn_trimStart (s : List Char) :
    ((trimStart s).splitOn '\n').filter (!isBlankLine ·) =
    ((s.splitOn '\n').filter (!isBlankLine ·)).modifyHead trimStart := by
  induction s with
  | nil => rfl
  | cons c s ih =>
    obtain ⟨first, rest, hs⟩ := List.exists_cons_of_ne_nil (List.splitOn_ne_nil '\n' s)
    cases hb : isBlank c with
    | true =>
      rw [trimStart, List.dropWhile_cons_of_pos hb, ← trimStart, ih,
        List.splitOn_cons_eq_if_modifyHead, hs]
      split
      · simp [isBlankLine]
      · cases hf : isBlankLine first <;> simp [isBlankLine_cons, hb, hf, trimStart]
    | false =>
      have hn : c ≠ '\n' := by
        rintro rfl
        exact absurd hb (by decide)
      rw [trimStart, List.dropWhile_cons_of_neg (by simp [hb]), List.splitOn_cons_eq_if_modifyHead,
        hs]
      simp [hn, isBlankLine_cons, hb, trimStart]

/-- Trimming drops blank lines at the end, and blanks of the last line that is kept. -/
theorem filter_splitOn_trimEnd (s : List Char) :
    ((trimEnd s).splitOn '\n').filter (!isBlankLine ·) =
    ((s.splitOn '\n').filter (!isBlankLine ·)).modifyLast trimEnd := by
  induction s using List.reverseRecOn with
  | nil => rfl
  | append_singleton s c ih =>
    by_cases hn : c = '\n'
    · subst hn
      rw [trimEnd_eq, List.rdropWhile_concat_pos _ _ _ (by decide), ← trimEnd_eq, ih,
        List.splitOn_append_cons_self]
      simp [isBlankLine]
    · obtain ⟨front, last, hs, hsc⟩ := splitOn_concat (s := s) hn
      cases hb : isBlank c with
      | true =>
        rw [trimEnd_eq, List.rdropWhile_concat_pos _ _ _ hb, ← trimEnd_eq, ih, hs, hsc]
        cases hl : isBlankLine last <;>
          simp [isBlankLine_concat, hb, hl, List.modifyLast_concat, trimEnd_eq,
            List.rdropWhile_concat_pos]
      | false =>
        rw [trimEnd_eq, List.rdropWhile_concat_neg _ _ _ (by simp [hb]), hsc]
        simp [isBlankLine_concat, hb, List.modifyLast_concat, trimEnd_eq,
          List.rdropWhile_concat_neg]

theorem filter_splitOn_trim (s : List Char) : ((trim s).splitOn '\n').filter (!isBlankLine ·) =
    trimEnds ((s.splitOn '\n').filter (!isBlankLine ·)) := by
  rw [trim, filter_splitOn_trimEnd, filter_splitOn_trimStart, trimEnds]

def keptLines (s : List Char) : List (List Char) := (lines s).filter (!isRowCount ·)

theorem toList_body (text : String) :
    (body text).toList = trim (unlines (keptLines text.toList)) := by
  rw [body, String.toList_ofList, keptLines]

theorem trimmed_body (text : String) : Trimmed (body text).toList := by
  rw [toList_body]
  exact trimmed_trim _

theorem unbroken_keptLines (s : List Char) : ∀ l ∈ keptLines s, '\n' ∉ l :=
  fun _ h => unbroken_of_mem_lines (List.mem_of_mem_filter h)

/-- Between its line feeds, a body has the lines of the text that are neither blank nor row
counts. -/
theorem filter_splitOn_body (text : String) :
    ((body text).toList.splitOn '\n').filter (!isBlankLine ·) =
    trimEnds ((lines text.toList).filter fun line => !isBlankLine line && !isRowCount line) := by
  rw [toList_body, filter_splitOn_trim, ← List.filter_filter, ← keptLines]
  by_cases hk : keptLines text.toList = []
  · rw [hk]
    rfl
  · rw [unlines, List.splitOn_intercalate '\n' (unbroken_keptLines _) hk]

/-- The content of a body is that of the text without its row counts. -/
theorem contentLines_body (text : String) :
    contentLines (body text).toList = (contentLines text.toList).filter (!isRowCount ·) := by
  rw [toList_body, contentLines_trim, contentLines_unlines,
    flatMap_contentLines (unbroken_keptLines _)]
  simp only [keptLines, contentLines, List.filter_map, List.filter_filter,
    Function.comp_def, trim_isEmpty, isRowCount_trim, Bool.and_comm]

/-- A row count is content, both as a line and as a piece between line feeds. -/
theorem isRowCount_of_content {s l : List Char}
    (hs : ∀ line ∈ contentLines s, isRowCount line = false)
    (hl : l ∈ lines s ∨ l ∈ s.splitOn '\n') : isRowCount l = false := by
  by_contra hr
  rw [Bool.not_eq_false] at hr
  have hb : (!(trim l).isEmpty) = true := by
    rw [trim_isEmpty, isBlankLine_of_isRowCount hr]
    rfl
  have hm : trim l ∈ contentLines s := by
    rcases hl with hl | hl
    · exact List.mem_filter.mpr ⟨List.mem_map_of_mem hl, hb⟩
    · rw [contentLines_eq]
      exact List.mem_filter.mpr ⟨List.mem_map_of_mem hl, hb⟩
  rw [← isRowCount_trim, hs _ hm] at hr
  cases hr

theorem isRowCount_of_mem_body {text : String} {l : List Char}
    (h : l ∈ lines (body text).toList ∨ l ∈ (body text).toList.splitOn '\n') :
    isRowCount l = false := by
  refine isRowCount_of_content (fun line hl => ?_) h
  rw [contentLines_body] at hl
  simpa using (List.mem_filter.mp hl).2

/-- A line keeps a carriage return at its end only where two stand before the line feed. -/
theorem getLast?_dropReturn {l rest : List Char} (h : ¬ ['\r', '\r', '\n'] <:+: l ++ '\n' :: rest) :
    (dropReturn l).getLast? ≠ some '\r' := by
  intro hl
  rw [dropReturn] at hl
  split at hl
  · next hr =>
    obtain ⟨front, rfl⟩ := List.getLast?_eq_some_iff.mp hr
    rw [List.dropLast_concat] at hl
    obtain ⟨front, rfl⟩ := List.getLast?_eq_some_iff.mp hl
    exact h ⟨front, rest, by simp⟩
  · next hr => exact hr hl

/-- If no line ends with a second carriage return, the lines of a text have plain breaks between
them. -/
theorem plainBreaks_unlines_filter (p : List Char → Bool) {s : List Char}
    (h : ¬ ['\r', '\r', '\n'] <:+: s) :
    plainBreaks (unlines ((lines s).filter p)) = unlines ((lines s).filter p) := by
  induction s using line_induction with
  | last l hl =>
    have hu : unlines ((lines l).filter p) ⊆ l := by
      rw [lines_of_unbroken hl]
      split
      · simp [unlines]
      · cases hp : p l <;> simp [hp, unlines]
    exact plainBreaks_of_unbroken fun hn => hl (hu hn)
  | more l rest hl ih =>
    have hr := getLast?_dropReturn h
    have ih :=
        ih fun hi => h (hi.trans ((List.suffix_cons _ _).trans (List.suffix_append _ _)).isInfix)
    have hd : '\n' ∉ dropReturn l := fun hn => hl (dropReturn_subset l hn)
    rw [lines_line hl, List.filter_cons]
    split
    · cases hk : (lines rest).filter p with
      | nil => simpa [unlines] using plainBreaks_of_unbroken hd
      | cons next more =>
        rw [hk] at ih
        rw [unlines_cons_cons, plainBreaks_line hd, ih, dropReturn, if_neg hr]
    · exact ih

/-- A body is its own body. -/
theorem body_body {text : String} (h : ¬ ['\r', '\r', '\n'] <:+: text.toList) :
    body (body text) = body text := by
  have hp : plainBreaks (body text).toList = (body text).toList := by
    have hu := plainBreaks_eq_self_iff.mp (plainBreaks_unlines_filter (!isRowCount ·) h)
    obtain ⟨before, after, -, -, hs⟩ := exists_blanks_trim (unlines (keptLines text.toList))
    rw [plainBreaks_eq_self_iff, toList_body]
    exact fun hi => hu (hi.trans ⟨before, after, by rw [List.append_assoc, ← hs]; rfl⟩)
  have hb := body_print ⟨[], [], [], by simp, by simp⟩ (trimmed_body text) fun _ hm =>
      isRowCount_of_mem_body (.inr hm)
  rw [hp] at hb
  simpa [Surround.print, Surround.tail] using hb

/-- A body begins and ends with no blank and has no row count among its lines. Every line of the
text that is neither blank nor a row count is in it, in order, without its line ending and, at the
ends of the body, without the blanks there. Unless a line of the text ends with a second carriage
return, the body of the body is the body. -/
theorem body_keeps_lines (text : String) :
    Trimmed (body text).toList ∧
    (∀ line ∈ lines (body text).toList, isRowCount line = false) ∧
    ((body text).toList.splitOn '\n').filter (!isBlankLine ·) =
      trimEnds ((lines text.toList).filter fun line => !isBlankLine line && !isRowCount line) ∧
    (¬ ['\r', '\r', '\n'] <:+: text.toList → body (body text) = body text) :=
  ⟨trimmed_body text, fun _ h => isRowCount_of_mem_body (.inl h),
    filter_splitOn_body text, body_body⟩

/-- A row count, blank lines and both line endings. With a second carriage return, a body has a body
of its own. -/
theorem body_keeps_lines_sample :
    body "\n  a \r\n(1 row affected)\n\n\tb\t\n c \r\n" = "a \n\n\tb\t\n c" ∧
    body (body "\n  a \r\n(1 row affected)\n\n\tb\t\n c \r\n") =
      body "\n  a \r\n(1 row affected)\n\n\tb\t\n c \r\n" ∧
    body "a\r\r\nb" = "a\r\nb" ∧ body (body "a\r\r\nb") = "a\nb" := by
  obtain ⟨-, -, -, hb⟩ := body_keeps_lines "\n  a \r\n(1 row affected)\n\n\tb\t\n c \r\n"
  exact ⟨by decide, hb (by decide), by decide, by decide⟩

end CatalogDdl.ResultSet
