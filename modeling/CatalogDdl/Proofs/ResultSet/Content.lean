import CatalogDdl.Proofs.ResultSet.RowCount
import CatalogDdl.Proofs.Text.Lined
import CatalogDdl.ResultSet.Basic

/-!
# Content lines

What is read of a printed text are its lines that are not blank, each trimmed. They do not depend on
how a line ends, and the content lines of texts with a line feed between them are those of each text
in turn. A value is part of a content line, so it has no line feed.
-/
namespace CatalogDdl.ResultSet
open Text

def isBlankLine (line : List Char) : Bool := line.all isBlank

theorem isBlankLine_cons (c : Char) (line : List Char) :
    isBlankLine (c :: line) = (isBlank c && isBlankLine line) := rfl

theorem isBlankLine_concat (c : Char) (line : List Char) :
    isBlankLine (line ++ [c]) = (isBlankLine line && isBlank c) := by
  simp [isBlankLine]

theorem trim_isEmpty (line : List Char) : (trim line).isEmpty = isBlankLine line := by
  rw [Bool.eq_iff_iff, List.isEmpty_iff, trim_eq_nil_iff, isBlankLine, List.all_eq_true]

/-- Neither the carriage return of a line ending nor an empty last piece is content. -/
theorem content_closeLines (pieces : List (List Char)) :
    ((closeLines pieces).map trim).filter (!·.isEmpty) = (pieces.map trim).filter (!·.isEmpty) := by
  induction pieces with
  | nil => rfl
  | cons piece pieces ih =>
    cases pieces with
    | nil => cases piece <;> simp [closeLines]
    | cons next rest =>
      rw [closeLines_cons_cons, List.map_cons, List.map_cons, trim_dropReturn, List.filter_cons,
        List.filter_cons, ih]

/-- The content lines are the trimmed pieces between line feeds that are not empty. -/
theorem contentLines_eq (s : List Char) :
    contentLines s = ((s.splitOn '\n').map trim).filter (!·.isEmpty) :=
  content_closeLines _

@[simp] theorem contentLines_nil : contentLines [] = [] := by simp [contentLines]

theorem contentLines_append (s t : List Char) :
    contentLines (s ++ '\n' :: t) = contentLines s ++ contentLines t := by
  simp only [contentLines_eq, List.splitOn_append_cons_self, List.map_append, List.filter_append]

/-- The lines of several texts are taken one text after the other. -/
theorem contentLines_unlines (texts : List (List Char)) :
    contentLines (unlines texts) = texts.flatMap contentLines := by
  induction texts with
  | nil => simp [unlines]
  | cons s texts ih =>
    cases texts with
    | nil => simp [unlines]
    | cons t rest =>
      rw [unlines_cons_cons, contentLines_append, ih]
      rfl

/-- A text of one line has one content line or none. -/
theorem contentLines_line {line : List Char} (h : '\n' ∉ line) :
    contentLines line = ([line].filter (!isBlankLine ·)).map trim := by
  rw [contentLines_eq, List.splitOn_eq_singleton h, List.map_singleton, List.filter_singleton,
    List.filter_singleton, trim_isEmpty]
  cases isBlankLine line <;> rfl

theorem flatMap_contentLines {ls : List (List Char)} (h : ∀ line ∈ ls, '\n' ∉ line) :
    ls.flatMap contentLines = (ls.filter (!isBlankLine ·)).map trim := by
  induction ls with
  | nil => rfl
  | cons line ls ih =>
    rw [List.forall_mem_cons] at h
    rw [List.flatMap_cons, contentLines_line h.1, ih h.2, ← List.map_append, ← List.filter_append,
      List.singleton_append]

/-- A row count is not blank. -/
theorem isBlankLine_of_isRowCount {line : List Char} (h : isRowCount line = true) :
    isBlankLine line = false := by
  by_contra hb
  rw [Bool.not_eq_false, ← trim_isEmpty, List.isEmpty_iff] at hb
  rw [← isRowCount_trim, hb] at h
  simp at h

theorem unbroken_of_mem_contentLines {s line : List Char} (h : line ∈ contentLines s) :
    '\n' ∉ line := by
  rw [contentLines_eq] at h
  obtain ⟨piece, hp, rfl⟩ := List.mem_map.mp (List.mem_of_mem_filter h)
  exact fun hn => not_mem_of_mem_splitOn hp (trim_subset piece hn)

theorem unbroken_of_mem_cells {d : Char} {line : List Char} (hl : '\n' ∉ line) {value : String}
    (h : value ∈ cells d line) : Unbroken value := by
  obtain ⟨cell, hc, rfl⟩ := List.mem_map.mp h
  rw [Unbroken, String.toList_ofList]
  exact fun hn => hl (subset_of_mem_splitOn hc (trim_subset cell hn))

/-- The fields of a row are those of one content line, and its values are as many pieces of another
one. -/
theorem exists_lines_of_mem_rows {d : Char} {text : String} {row : Row}
    (h : row ∈ (parse d text).rows) :
    ∃ header ∈ contentLines text.toList, ∃ line ∈ contentLines text.toList,
      row = ⟨cells d header, cells d line⟩ ∧ (cells d line).length = (cells d header).length := by
  rw [parse] at h
  split at h
  · next header ruled data hl =>
    obtain ⟨values, hm, hs⟩ := List.mem_filterMap.mp h
    obtain ⟨line, hd, rfl⟩ := List.mem_map.mp hm
    have hc : line ∈ contentLines text.toList := by
      rw [hl]
      simp [(List.takeWhile_prefix _).subset hd]
    split at hs
    · next hw =>
      cases hs
      exact ⟨header, by simp [hl], line, hc, rfl, hw⟩
    · cases hs
  · cases h

/-- No value that is read from a printed text has a line feed, whatever the delimiter is. -/
theorem unbroken_of_mem_rows {d : Char} {text : String} {row : Row} (hr : row ∈ (parse d text).rows)
    {value : String} (hv : value ∈ row.values) : Unbroken value := by
  obtain ⟨header, -, line, hl, rfl, -⟩ := exists_lines_of_mem_rows hr
  exact unbroken_of_mem_cells (unbroken_of_mem_contentLines hl) hv

end CatalogDdl.ResultSet
