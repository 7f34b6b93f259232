import CatalogDdl.Proofs.ResultSet.DataLine
import CatalogDdl.Proofs.ResultSet.Printed

/-!
# Rows by the number of their fields

A data line is a row if it has as many delimiters as the header line. The blanks around a line are
not part of it, so delimiters among them do not count. That only happens under a delimiter that is
itself a blank: under any other one the first field and the last one may be empty, and the line is a
row all the same.
-/
namespace CatalogDdl.ResultSet
open Text

variable {d : Char} {fields : List String} {header ruled : List Char} {ls : List (List Char)}

def outerDelimiters (d : Char) (line : List Char) : Nat :=
  (line.takeWhile isBlank).count d + ((trimStart line).rtakeWhile isBlank).count d

theorem count_eq (d : Char) (line : List Char) :
    line.count d = (trim line).count d + outerDelimiters d line := by
  have hs : line.count d = (line.takeWhile isBlank).count d + (trimStart line).count d := by
    rw [trimStart, ← List.count_append, List.takeWhile_append_dropWhile]
  have he :
      (trimStart line).count d =
        (trim line).count d + ((trimStart line).rtakeWhile isBlank).count d := by
    rw [trim, trimEnd_eq, ← List.count_append, List.rdropWhile_append_rtakeWhile]
  rw [outerDelimiters]
  omega

/-- A delimiter that is no blank is not among the blanks around a line. -/
theorem outerDelimiters_eq_zero (hd : isBlank d = false) (line : List Char) :
    outerDelimiters d line = 0 := by
  have hs : d ∉ line.takeWhile isBlank := fun hm => by simp [List.mem_takeWhile_imp hm] at hd
  have he : d ∉ (trimStart line).rtakeWhile isBlank :=
      fun hm => by simp [List.mem_rtakeWhile_imp hm] at hd
  rw [outerDelimiters, List.count_eq_zero_of_not_mem hs, List.count_eq_zero_of_not_mem he]

/-- A line whose first character is a blank delimiter loses it. -/
theorem outerDelimiters_ne_zero (hd : isBlank d = true) (line : List Char) :
    outerDelimiters d (d :: line) ≠ 0 := by
  simp [outerDelimiters, hd]

theorem outerDelimiters_eq_zero_iff :
    (∀ line, isBlankLine line = false → outerDelimiters d line = 0) ↔ isBlank d = false := by
  refine ⟨fun h => ?_, fun hd line _ => outerDelimiters_eq_zero hd line⟩
  by_contra hd
  rw [Bool.not_eq_false] at hd
  exact outerDelimiters_ne_zero hd ['x'] (h _ (by simp [isBlankLine, isBlank, blanks]))

theorem cells_cons {c : Char} (hb : isBlank c = true) (hc : c ≠ d) (line : List Char) :
    cells d (c :: line) = cells d line := by
  obtain ⟨first, rest, hs⟩ := List.exists_cons_of_ne_nil (List.splitOn_ne_nil d line)
  rw [cells, cells, List.splitOn_cons_eq_if_modifyHead, hs]
  simp [hc, trim_cons hb]

theorem cells_concat {c : Char} (hb : isBlank c = true) (hc : c ≠ d) (line : List Char) :
    cells d (line ++ [c]) = cells d line := by
  obtain ⟨front, last, hs, hsc⟩ := splitOn_concat (s := line) hc
  rw [cells, cells, hs, hsc]
  simp [trim_concat hb]

/-- Under a delimiter that is no blank, the blanks around a line belong to its first field and its
last one. -/
theorem cells_trim (hd : isBlank d = false) (line : List Char) :
    cells d (trim line) = cells d line := by
  have hne {c : Char} (hb : isBlank c = true) : c ≠ d := by
    rintro rfl
    rw [hb] at hd
    cases hd
  have hstart (s : List Char) : cells d (trimStart s) = cells d s := by
    induction s with
    | nil => rfl
    | cons c s ih =>
      by_cases hb : isBlank c = true
      · rw [cells_cons hb (hne hb), ← ih, trimStart, List.dropWhile_cons_of_pos hb, trimStart]
      · rw [trimStart, List.dropWhile_cons_of_neg hb]
  have hend (s : List Char) : cells d (trimEnd s) = cells d s := by
    induction s using List.reverseRecOn with
    | nil => rfl
    | append_singleton s c ih =>
      by_cases hb : isBlank c = true
      · rw [cells_concat hb (hne hb), ← ih, trimEnd_eq, List.rdropWhile_concat_pos _ _ _ hb,
          trimEnd_eq]
      · rw [trimEnd_eq, List.rdropWhile_concat_neg _ _ _ hb]
  rw [trim, hend, hstart]

/-- A header line under which each field can be told by its name. -/
structure NamesFields (d : Char) (fields : List String) : Prop where
  nonempty : fields ≠ []
  plain : ∀ name ∈ fields, Plain d name
  named : ∀ name ∈ fields, name.toList ≠ []

theorem joined_ne_nil {name : String} (hn : name.toList ≠ []) (rest : List String) :
    joined d (name :: rest) ≠ [] := by
  cases rest with
  | nil => rwa [joined_singleton]
  | cons next rest => simp [joined_cons_cons]

/-- Between names that are not empty even a blank delimiter is inside the line. -/
theorem trimmed_joined_names (hp : ∀ name ∈ fields, Plain d name)
    (hn : ∀ name ∈ fields, name.toList ≠ []) :
    Trimmed (joined d fields) := by
  induction fields with
  | nil => exact Trimmed.nil
  | cons name rest ih =>
    rw [List.forall_mem_cons] at hp hn
    cases rest with
    | nil => simpa using hp.1.trimmed
    | cons next rest =>
      have hr := joined_ne_nil (d := d) (hn.2 next List.mem_cons_self) rest
      rw [joined_cons_cons]
      exact hp.1.trimmed.append_append (ih hp.2 hn.2) hn.1 hr [d]

namespace NamesFields

theorem cells_header (h : NamesFields d fields) : cells d (trim (joined d fields)) = fields := by
  rw [trim_eq_self (trimmed_joined_names h.plain h.named), cells_joined h.nonempty h.plain]

/-- Trimmed, a line has as many fields as the header line if the delimiters at its ends are left out
of account. -/
theorem length_cells_iff (h : NamesFields d fields) (line : List Char) :
    (cells d (trim line)).length = fields.length ↔
      line.count d = (joined d fields).count d + outerDelimiters d line := by
  have hf : fields.length = (joined d fields).count d + 1 := by
    rw [← length_cells_eq, cells_joined h.nonempty h.plain]
  have hl := count_eq d line
  rw [length_cells_eq, hf]
  omega

end NamesFields

/-- A data line is a row if and only if it has as many delimiters as the header line, those among
the blanks around it not counted, and all other data lines are counted as bad. There are none among
those blanks on any line if and only if the delimiter is no blank, and then the values are all the
fields of the line. -/
theorem parse_by_field_count {text : String} (h : NamesFields d fields)
    (hl : (lines text.toList).filter (!isBlankLine ·) = joined d fields :: ruled :: ls) :
    parse d text =
      { rows := ((dataLines ls).filter fun line =>
          line.count d = (joined d fields).count d + outerDelimiters d line).map fun line =>
            ⟨fields, cells d (trim line)⟩
        skipped := (dataLines ls).countP fun line =>
          line.count d ≠ (joined d fields).count d + outerDelimiters d line } ∧
    ((∀ line, isBlankLine line = false → outerDelimiters d line = 0) ↔ isBlank d = false) ∧
    (isBlank d = false → ∀ line, cells d (trim line) = cells d line) := by
  refine ⟨?_, outerDelimiters_eq_zero_iff, cells_trim⟩
  have hr := rows_ofLines d fields ((dataLines ls).map trim)
  have hs := skipped_ofLines d fields ((dataLines ls).map trim)
  simp only [List.filter_map, List.map_map, List.countP_map, Function.comp_def, ne_eq,
    h.length_cells_iff] at hr hs
  rw [parse_of_lines hl, h.cells_header]
  exact congrArg₂ ResultSet.mk hr hs

/-- Under a tab, a line with an empty first field is lost, and one with a tab too many in front is a
row. -/
theorem parse_by_field_count_tabbed :
    parse '\t' "A\tB\n-\t-\n1\t2\n\tx\n\t3\t4\n(2 rows affected)" =
      ⟨[⟨["A", "B"], ["1", "2"]⟩, ⟨["A", "B"], ["3", "4"]⟩], 1⟩ := by
  have h : NamesFields '\t' ["A", "B"] := ⟨by decide, by decide, by decide⟩
  have hl :
      (lines "A\tB\n-\t-\n1\t2\n\tx\n\t3\t4\n(2 rows affected)".toList).filter (!isBlankLine ·) =
      joined '\t' ["A", "B"] :: "-\t-".toList ::
        ["1\t2".toList, "\tx".toList, "\t3\t4".toList, "(2 rows affected)".toList] := by decide
  rw [(parse_by_field_count h hl).1]
  decide

/-- With a tab in front, a line with as many tabs as the header line is no row. -/
theorem outer_tab_lost : "\tx".toList.count '\t' = (joined '\t' ["A", "B"]).count '\t' ∧
    parse '\t' (sheet (joined '\t' ["A", "B"]) "-\t-".toList ["\tx".toList]) = ⟨[], 1⟩ := by decide

end CatalogDdl.ResultSet
