import CatalogDdl.Proofs.ResultSet.Content

/-!
# Data lines

The data lines of a printed result set are the lines behind its ruled line that are not blank, as
far as the first row count. Each of them is read as a row or counted as bad, and what is read of it
does not depend on the others. So a result set can be read part by part, and what stands behind a
row count makes no difference.
-/
namespace CatalogDdl.ResultSet
open Text

/-- The rows of one result set and then those of another, with the bad lines of both. -/
def append (first second : ResultSet) : ResultSet where
  rows := first.rows ++ second.rows
  skipped := first.skipped + second.skipped

instance : Append ResultSet := ⟨append⟩

theorem append_eq (first second : ResultSet) :
    first ++ second = ⟨first.rows ++ second.rows, first.skipped + second.skipped⟩ := rfl

section Reading

variable (d : Char) (fields : List String)

/-- There is one field more than there are delimiters. -/
theorem length_cells_eq (line : List Char) : (cells d line).length = line.count d + 1 := by
  rw [cells, List.length_map, length_splitOn]

theorem rows_ofLines (data : List (List Char)) : (ofLines d fields data).rows =
    (data.filter fun line => (cells d line).length = fields.length).map fun line =>
      ⟨fields, cells d line⟩ := by
  simp only [ofLines, List.filterMap_map, Function.comp_def]
  rw [← List.filterMap_eq_map, List.filterMap_filter]
  simp only [Function.comp_def, decide_eq_true_eq]

theorem skipped_ofLines (data : List (List Char)) : (ofLines d fields data).skipped =
    data.countP fun line => (cells d line).length ≠ fields.length := by
  rw [ofLines, List.countP_map]
  rfl

/-- A data line is a row or it is counted as bad. -/
theorem length_ofLines (data : List (List Char)) :
    (ofLines d fields data).rows.length + (ofLines d fields data).skipped = data.length := by
  rw [rows_ofLines, skipped_ofLines, List.length_map, ← List.countP_eq_length_filter,
    List.length_eq_countP_add_countP fun line => (cells d line).length = fields.length]
  simp

theorem ofLines_append (a b : List (List Char)) :
    ofLines d fields (a ++ b) = ofLines d fields a ++ ofLines d fields b := by
  simp only [ofLines, append_eq, List.map_append, List.filterMap_append, List.countP_append]

end Reading

/-- The lines that are not blank, as far as the first row count. -/
def dataLines (ls : List (List Char)) : List (List Char) :=
  (ls.filter (!isBlankLine ·)).takeWhile (!isRowCount ·)

section Parts

variable {a ls : List (List Char)}

theorem dataLines_append_of_forall (h : ∀ line ∈ a, isRowCount line = false)
    (b : List (List Char)) :
    dataLines (a ++ b) = dataLines a ++ dataLines b := by
  have ha : ∀ line ∈ a.filter (!isBlankLine ·), (!isRowCount line) = true := fun line hl => by
    simp [h line (List.mem_of_mem_filter hl)]
  rw [dataLines, List.filter_append, List.takeWhile_append_of_pos ha, dataLines, dataLines,
    List.takeWhile_eq_self_iff.mpr ha]

/-- A row count is not blank, so the lines behind it are not looked at. -/
theorem dataLines_append_of_exists (h : ∃ line ∈ a, isRowCount line = true) (b : List (List Char)) :
    dataLines (a ++ b) = dataLines a := by
  obtain ⟨count, hm, hc⟩ := h
  rw [dataLines, List.filter_append, List.takeWhile_append, if_neg, dataLines]
  intro hl
  have he := List.takeWhile_eq_self_iff.mp ((List.takeWhile_prefix _).eq_of_length hl)
  have hn := he count (List.mem_filter.mpr ⟨hm, by simp [isBlankLine_of_isRowCount hc]⟩)
  simp [hc] at hn

/-- The content lines in front of the first row count are the data lines without the blanks around
them. -/
theorem takeWhile_content (ls : List (List Char)) :
    ((ls.filter (!isBlankLine ·)).map trim).takeWhile (!isRowCount ·) =
      (dataLines ls).map trim := by
  simp only [dataLines, List.takeWhile_map, Function.comp_def, isRowCount_trim]

end Parts

section Texts

variable {d : Char} {text : String} {header ruled : List Char} {ls : List (List Char)}

theorem contentLines_eq_map (s : List Char) :
    contentLines s = ((lines s).filter (!isBlankLine ·)).map trim := by
  simp only [contentLines, List.filter_map, Function.comp_def, trim_isEmpty]

/-- The first line with content names the fields, the second one is the ruled line, and the others
are data. -/
theorem parse_of_content (h : contentLines text.toList =
      trim header :: trim ruled :: (ls.filter (!isBlankLine ·)).map trim) :
    parse d text = ofLines d (cells d (trim header)) ((dataLines ls).map trim) := by
  rw [← takeWhile_content, parse, h]

/-- Behind a header and a ruled line all lines are data lines. -/
theorem parse_of_lines (h : (lines text.toList).filter (!isBlankLine ·) = header :: ruled :: ls) :
    parse d text = ofLines d (cells d (trim header)) ((dataLines ls).map trim) := by
  have hb : ls.filter (!isBlankLine ·) = ls := by
    refine List.filter_eq_self.mpr fun line hl => ?_
    have hm : line ∈ (lines text.toList).filter (!isBlankLine ·) := by simp [h, hl]
    exact (List.mem_filter.mp hm).2
  have hc :
      contentLines text.toList =
        trim header :: trim ruled :: (ls.filter (!isBlankLine ·)).map trim := by
    rw [contentLines_eq_map, h, hb, List.map_cons, List.map_cons]
  exact parse_of_content hc

def sheet (header ruled : List Char) (ls : List (List Char)) : String :=
  String.ofList (unlines (header :: ruled :: ls))

theorem parse_sheet (hu : ∀ line ∈ header :: ruled :: ls, '\n' ∉ line)
    (hh : isBlankLine header = false) (hr : isBlankLine ruled = false) :
    parse d (sheet header ruled ls) =
      ofLines d (cells d (trim header)) ((dataLines ls).map trim) := by
  have hc : contentLines (sheet header ruled ls).toList =
      trim header :: trim ruled :: (ls.filter (!isBlankLine ·)).map trim := by
    rw [sheet, String.toList_ofList, contentLines_unlines, flatMap_contentLines hu]
    simp [hh, hr]
  exact parse_of_content hc

/-- Every line behind the ruled line that is not blank and stands in front of the first row count is
a row or bad. -/
theorem length_parse (d : Char) (text : String) :
    (parse d text).rows.length + (parse d text).skipped =
    (dataLines (((lines text.toList).filter (!isBlankLine ·)).drop 2)).length := by
  cases hl : (lines text.toList).filter (!isBlankLine ·) with
  | nil => simp [parse, contentLines_eq_map, hl, dataLines]
  | cons header below =>
    cases below with
    | nil => simp [parse, contentLines_eq_map, hl, dataLines]
    | cons ruled ls =>
      rw [parse_of_lines hl, length_ofLines, List.length_map]
      rfl

end Texts

/-- Two parts of a sheet are read one after the other, unless there is a row count in the first one:
then nothing of the second is read. In every text each line between the ruled line and the first row
count is a row, bad or blank. -/
theorem parse_by_parts (d : Char) :
    (∀ (header ruled : List Char) (a b : List (List Char)),
      (∀ line ∈ header :: ruled :: (a ++ b), '\n' ∉ line) →
      isBlankLine header = false → isBlankLine ruled = false →
      ((∀ line ∈ a, isRowCount line = false) →
        parse d (sheet header ruled (a ++ b)) =
          parse d (sheet header ruled a) ++ parse d (sheet header ruled b)) ∧
      ((∃ line ∈ a, isRowCount line = true) →
        parse d (sheet header ruled (a ++ b)) = parse d (sheet header ruled a))) ∧
    ∀ text, (parse d text).rows.length + (parse d text).skipped =
      (dataLines (((lines text.toList).filter (!isBlankLine ·)).drop 2)).length := by
  refine ⟨fun header ruled a b hu hh hr => ?_, length_parse d⟩
  have ha : ∀ line ∈ header :: ruled :: a, '\n' ∉ line := fun line hl => hu line (by grind)
  have hb : ∀ line ∈ header :: ruled :: b, '\n' ∉ line := fun line hl => hu line (by grind)
  rw [parse_sheet hu hh hr, parse_sheet ha hh hr, parse_sheet hb hh hr]
  constructor
  · intro hn
    rw [dataLines_append_of_forall hn, List.map_append, ofLines_append]
  · intro he
    rw [dataLines_append_of_exists he]

/-- A row, a blank line and a bad line. -/
def samplePart : List (List Char) := ["1|2".toList, " ".toList, "3".toList]

/-- A row and a row count with one more line behind it. -/
def sampleEnd : List (List Char) := ["|4".toList, "(2 rows affected)".toList, "5|6".toList]

theorem parse_by_parts_sample :
    parse '|' (sheet "A|B".toList "-|-".toList (samplePart ++ sampleEnd)) =
      ⟨[⟨["A", "B"], ["1", "2"]⟩, ⟨["A", "B"], ["", "4"]⟩], 1⟩ ∧
    parse '|' (sheet "A|B".toList "-|-".toList (sampleEnd ++ samplePart)) =
      ⟨[⟨["A", "B"], ["", "4"]⟩], 0⟩ := by
  have hs : parse '|' (sheet "A|B".toList "-|-".toList samplePart) =
      ⟨[⟨["A", "B"], ["1", "2"]⟩], 1⟩ := by decide
  have he : parse '|' (sheet "A|B".toList "-|-".toList sampleEnd) =
      ⟨[⟨["A", "B"], ["", "4"]⟩], 0⟩ := by decide
  obtain ⟨hparts, -⟩ := parse_by_parts '|'
  have hp :=
      hparts "A|B".toList "-|-".toList samplePart sampleEnd (by decide) (by decide) (by decide)
  have hq :=
      hparts "A|B".toList "-|-".toList sampleEnd samplePart (by decide) (by decide) (by decide)
  constructor
  · rw [hp.1 (by decide), hs, he]
    rfl
  · rw [hq.2 (by decide), he]

end CatalogDdl.ResultSet
