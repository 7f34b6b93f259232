import CatalogDdl.Proofs.ResultSet.Content

/-!
# Printed rows are read back

Values without the delimiter, without line feeds and without blanks around them can be read from a
printed result set: its rows are returned as they were printed, under the printed field names.
-/
namespace CatalogDdl.ResultSet
open Text

/-- A value that its place on a printed line does not change. -/
structure Plain (delimiter : Char) (value : String) : Prop where
  trimmed : Trimmed value.toList
  undelimited : delimiter ∉ value.toList
  unbroken : '\n' ∉ value.toList

instance (delimiter : Char) (value : String) : Decidable (Plain delimiter value) :=
  decidable_of_iff (Trimmed value.toList ∧ delimiter ∉ value.toList ∧ '\n' ∉ value.toList)
    ⟨fun h => ⟨h.1, h.2.1, h.2.2⟩, fun h => ⟨h.1, h.2, h.3⟩⟩

/-- A line of values with the delimiter between them. -/
def joined (delimiter : Char) (values : List String) : List Char :=
  List.intercalate [delimiter] (values.map String.toList)

@[simp] theorem joined_singleton (delimiter : Char) (value : String) :
    joined delimiter [value] = value.toList := by
  simp [joined]

theorem joined_cons_cons (delimiter : Char) (value next : String) (rest : List String) :
    joined delimiter (value :: next :: rest) =
      value.toList ++ delimiter :: joined delimiter (next :: rest) := by
  simp [joined, List.intercalate_cons_cons]

/-- Lines that may follow the rows: none, or a row count and then any text at all. -/
def Ending (lines : List (List Char)) : Prop :=
  ∀ count ∈ lines.head?, isRowCount count = true ∧ '\n' ∉ count

instance (lines : List (List Char)) : Decidable (Ending lines) :=
  inferInstanceAs (Decidable (∀ count ∈ lines.head?, isRowCount count = true ∧ '\n' ∉ count))

theorem ending_countLine (n : Nat) (more : List (List Char)) : Ending (countLine n :: more) := by
  intro count hc
  cases hc
  exact ⟨isRowCount_countLine n, unbroken_countLine n⟩

section Line

variable {d : Char} {values : List String}

theorem trimmed_joined (hd : isBlank d = false) (h : ∀ value ∈ values, Plain d value) :
    Trimmed (joined d values) := by
  induction values with
  | nil => exact Trimmed.nil
  | cons value rest ih =>
    rw [List.forall_mem_cons] at h
    cases rest with
    | nil => simpa using h.1.trimmed
    | cons next rest =>
      rw [joined_cons_cons]
      exact h.1.trimmed.append_cons (ih h.2) hd

/-- A delimiter that is no blank is no line feed either. -/
theorem unbroken_joined (hd : isBlank d = false) (h : ∀ value ∈ values, Plain d value) :
    '\n' ∉ joined d values := by
  induction values with
  | nil => simp [joined]
  | cons value rest ih =>
    rw [List.forall_mem_cons] at h
    cases rest with
    | nil => simpa using h.1.unbroken
    | cons next rest =>
      have hn : '\n' ≠ d := by
        rintro rfl
        exact absurd hd (by decide)
      rw [joined_cons_cons, List.mem_append, List.mem_cons]
      exact not_or.mpr ⟨h.1.unbroken, not_or.mpr ⟨hn, ih h.2⟩⟩

theorem delimiter_mem_joined (h : 2 ≤ values.length) : d ∈ joined d values := by
  match values, h with
  | value :: next :: rest, _ => simp [joined_cons_cons]

/-- The fields of a printed line are its values. -/
theorem cells_joined (hv : values ≠ []) (h : ∀ value ∈ values, Plain d value) :
    cells d (joined d values) = values := by
  have hs : (joined d values).splitOn d = values.map String.toList := by
    apply List.splitOn_intercalate
    · simpa using fun value hm => (h value hm).undelimited
    · simpa using hv
  rw [cells, hs, List.map_map]
  refine (List.map_congr_left fun value hm => ?_).trans (List.map_id values)
  simp [trim_eq_self (h value hm).trimmed]

end Line

section Reading

variable {d : Char} {fields : List String} {rows : List (List String)} {ruled : List Char}
  {ls rest : List (List Char)}

/-- Printed rows are read, and none is bad. -/
theorem ofLines_joined (hw : ∀ row ∈ rows, row.length = fields.length) (hf : fields ≠ [])
    (hp : ∀ row ∈ rows, ∀ value ∈ row, Plain d value) :
    ofLines d fields (rows.map (joined d)) =
      { rows := rows.map (Row.mk fields), skipped := 0 } := by
  have hc : (rows.map (joined d)).map (cells d) = rows := by
    rw [List.map_map]
    refine (List.map_congr_left fun row hr => cells_joined ?_ (hp row hr)).trans (List.map_id rows)
    rintro rfl
    exact hf (List.length_eq_zero_iff.mp (hw [] hr).symm)
  rw [ofLines, hc]
  congr 1
  · rw [← List.filterMap_eq_map]
    exact List.filterMap_congr fun row hr => by simp [hw row hr]
  · simpa using hw

/-- The rows end where the first row count stands. -/
theorem takeWhile_rows (hr : ∀ row ∈ rows, isRowCount (joined d row) = false) (he : Ending rest) :
    (rows.map (joined d) ++ rest.flatMap contentLines).takeWhile (!isRowCount ·) =
      rows.map (joined d) := by
  have hn : (rest.flatMap contentLines).takeWhile (!isRowCount ·) = [] := by
    cases rest with
    | nil => rfl
    | cons count more =>
      obtain ⟨hc, hn⟩ := he count rfl
      simp [contentLines_line hn, isBlankLine_of_isRowCount hc, hc]
  rw [List.takeWhile_append_of_pos, hn, List.append_nil]
  simpa using hr

/-- The content lines of a printed result set, whatever its blank lines are. -/
theorem contentLines_printed (hd : isBlank d = false)
    (hp : ∀ values ∈ fields :: rows, ∀ value ∈ values, Plain d value)
    (hu : ∀ line ∈ ls, '\n' ∉ line)
    (hls : ls.filter (!isBlankLine ·) = joined d fields :: ruled :: rows.map (joined d)) :
    contentLines (unlines (ls ++ rest)) =
      joined d fields :: trim ruled :: (rows.map (joined d) ++ rest.flatMap contentLines) := by
  rw [List.forall_mem_cons] at hp
  have hr : (rows.map (joined d)).map trim = rows.map (joined d) := by
    rw [List.map_map]
    exact List.map_congr_left fun row hm => trim_eq_self (trimmed_joined hd (hp.2 row hm))
  rw [contentLines_unlines, List.flatMap_append, flatMap_contentLines hu, hls, List.map_cons,
    List.map_cons, hr, trim_eq_self (trimmed_joined hd hp.1)]
  rfl

/-- No line of plain values contains a line feed. -/
theorem unbroken_lines (hd : isBlank d = false)
    (hp : ∀ values ∈ fields :: rows, ∀ value ∈ values, Plain d value) (hn : '\n' ∉ ruled) :
    ∀ line ∈ joined d fields :: ruled :: rows.map (joined d), '\n' ∉ line := by
  rw [List.forall_mem_cons] at hp
  refine List.forall_mem_cons.mpr ⟨unbroken_joined hd hp.1, List.forall_mem_cons.mpr ⟨hn, ?_⟩⟩
  exact List.forall_mem_map.mpr fun row hm => unbroken_joined hd (hp.2 row hm)

/-- A printed result set is read back if none of its lines contains a line feed. -/
theorem parse_unlines (hd : isBlank d = false) (hf : fields ≠ [])
    (hw : ∀ row ∈ rows, row.length = fields.length)
    (hp : ∀ values ∈ fields :: rows, ∀ value ∈ values, Plain d value)
    (hr : ∀ row ∈ rows, isRowCount (joined d row) = false)
    (hu : ∀ line ∈ ls, '\n' ∉ line)
    (hls : ls.filter (!isBlankLine ·) = joined d fields :: ruled :: rows.map (joined d))
    (he : Ending rest) :
    parse d (String.ofList (unlines (ls ++ rest))) =
      { rows := rows.map (Row.mk fields), skipped := 0 } := by
  rw [parse, String.toList_ofList, contentLines_printed hd hp hu hls]
  rw [List.forall_mem_cons] at hp
  simp only
  rw [cells_joined hf hp.1, takeWhile_rows hr he, ofLines_joined hw hf hp.2]

/-- Let `ls` be lines that are, but for blank ones, the field names, a ruled line and the rows.
Before any ending they are read back as these rows, in order, and no line is counted as bad. -/
theorem parse_printed (hd : isBlank d = false) (hf : fields ≠ [])
    (hw : ∀ row ∈ rows, row.length = fields.length)
    (hp : ∀ values ∈ fields :: rows, ∀ value ∈ values, Plain d value)
    (hr : ∀ row ∈ rows, isRowCount (joined d row) = false)
    (hn : '\n' ∉ ruled) (hb : ∀ line ∈ ls, isBlankLine line = true → '\n' ∉ line)
    (hls : ls.filter (!isBlankLine ·) = joined d fields :: ruled :: rows.map (joined d))
    (he : Ending rest) :
    parse d (String.ofList (unlines (ls ++ rest))) =
      { rows := rows.map (Row.mk fields), skipped := 0 } := by
  refine parse_unlines hd hf hw hp hr ?_ hls he
  intro line hl
  cases hbl : isBlankLine line with
  | true => exact hb line hl hbl
  | false =>
    have hm : line ∈ ls.filter (!isBlankLine ·) := List.mem_filter.mpr ⟨hl, by simp [hbl]⟩
    rw [hls] at hm
    exact unbroken_lines hd hp hn line hm

end Reading

/-- Two rows with empty values at the ends of their lines, a carriage return inside a value, and
blank lines. -/
def sampleLines : List (List Char) :=
  [[' '], "A|B".toList, "-|-".toList, [], "|x".toList, ['\t'], "y\rz|".toList]

/-- The sample with a row count and more text after it. -/
theorem parse_printed_sample :
    parse '|' " \nA|B\n-|-\n\n|x\n\t\ny\rz|\n(2 rows affected)\nA|B" =
      { rows := [⟨["A", "B"], ["", "x"]⟩, ⟨["A", "B"], ["y\rz", ""]⟩], skipped := 0 } := by
  have ht : String.ofList (unlines (sampleLines ++ ["(2 rows affected)".toList, "A|B".toList])) =
      " \nA|B\n-|-\n\n|x\n\t\ny\rz|\n(2 rows affected)\nA|B" := by decide
  have hw : ∀ row ∈ [["", "x"], ["y\rz", ""]], row.length = ["A", "B"].length := by decide
  have hls : sampleLines.filter (!isBlankLine ·) =
      joined '|' ["A", "B"] :: "-|-".toList :: [["", "x"],
        ["y\rz", ""]].map (joined '|') := by decide
  rw [← ht]
  exact parse_printed (by decide) (by decide) hw (by decide) (by decide) (by decide)
    (by decide) hls (by decide)

end CatalogDdl.ResultSet
