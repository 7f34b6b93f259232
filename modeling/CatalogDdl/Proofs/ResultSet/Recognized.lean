import CatalogDdl.Proofs.ResultSet.Body
import CatalogDdl.Proofs.ResultSet.DataLine
import Mathlib.Tactic.TFAE

/-!
# Where row counts are recognized

The form of a row count decides what becomes of a line, and it is the same in both kinds of printed
texts. In front of a row count the rows of a result set end, and a body leaves it out.
-/
namespace CatalogDdl.ResultSet
open Text

theorem length_cells {d : Char} {line : List Char} (h : d ∉ line) : (cells d line).length = 1 := by
  rw [length_cells_eq, List.count_eq_zero_of_not_mem h]

/-- The last line is read as a row if and only if the line in front of it is no row count. -/
theorem rows_eq_nil_iff {d : Char} {header ruled line last : List Char}
    (hu : ∀ l ∈ [header, ruled, line, last], '\n' ∉ l)
    (hb : ∀ l ∈ [header, ruled, last], isBlankLine l = false)
    (hc : isRowCount last = false)
    (hn : (cells d (trim last)).length = (cells d (trim header)).length) :
    (parse d (String.ofList (unlines [header, ruled, line, last]))).rows = [] ↔
      isRowCount line = true := by
  simp only [List.forall_mem_cons] at hb
  obtain ⟨hh, hr, hl, -⟩ := hb
  have hp : parse d (String.ofList (unlines [header, ruled, line, last])) =
      ofLines d (cells d (trim header)) ((dataLines [line, last]).map trim) := parse_sheet hu hh hr
  rw [hp, rows_ofLines]
  cases hline : isRowCount line with
  | true => simp [dataLines, isBlankLine_of_isRowCount hline, hline]
  | false => cases hb : isBlankLine line <;> simp [dataLines, hline, hb, hl, hc, hn]

/-- A line between two others is left out if and only if it is a row count. -/
theorem body_eq_iff {line : List Char} (hl : '\n' ∉ line) :
    body (String.ofList (unlines [['a'], line, ['b']])) = "a\nb" ↔ isRowCount line = true := by
  have ha : isRowCount ['a'] = false := by decide
  have hb : isRowCount ['b'] = false := by decide
  have hs : lines (unlines [['a'], line, ['b']]) = [['a'], dropReturn line, ['b']] := by
    have hlast : lines (unlines [['b']]) = [['b']] := by decide
    rw [unlines_cons_cons, unlines_cons_cons, lines_line (by decide), lines_line hl, hlast]
    rfl
  rw [body, String.toList_ofList, hs]
  cases hr : isRowCount line with
  | true =>
    have hf : [['a'], dropReturn line, ['b']].filter (!isRowCount ·) =
        [['a'], ['b']] := by simp [ha, hb, hr]
    rw [hf]
    decide
  | false =>
    have hf : [['a'], dropReturn line, ['b']].filter (!isRowCount ·) =
        [['a'], dropReturn line, ['b']] := by
      simp [ha, hb, hr]
    have hu : unlines [['a'], dropReturn line, ['b']] =
        'a' :: ('\n' :: (dropReturn line ++ ['\n']) ++ ['b']) := by
      rw [unlines_cons_cons, unlines_cons_cons]
      simp [unlines]
    have ht :=
        Trimmed.cons_concat (c := 'a') (d := 'b') (by decide) (by decide)
          ('\n' :: (dropReturn line ++ ['\n']))
    rw [hf, hu, trim_eq_self ht]
    refine iff_of_false (fun h => ?_) Bool.false_ne_true
    -- with the line there is one line feed too many
    have hc := congrArg (fun text => text.toList.count '\n') h
    simp at hc

/-- What says that a line is a row count: its form, the test for it, that a result set with rows of
one field has none when the line stands in front of them, and that a body leaves the line out. -/
theorem row_count_forms {header ruled line : List Char} (hu : ∀ l ∈ [header, ruled, line], '\n' ∉ l)
    (hb : isBlankLine header = false ∧ isBlankLine ruled = false) (hd : '\x01' ∉ header) :
    List.TFAE [
      ∃ form : CountForm, form.text = line,
      isRowCount line = true,
      (parse '\x01' (String.ofList (unlines [header, ruled, line, "end".toList]))).rows = [],
      body (String.ofList (unlines [['a'], line, ['b']])) = "a\nb"] := by
  have hl : '\n' ∉ line := hu line (by simp)
  have hlines : ∀ l ∈ [header, ruled, line] ++ ["end".toList], '\n' ∉ l :=
    List.forall_mem_append.mpr ⟨hu, by decide⟩
  have hblank : ∀ l ∈ [header, ruled, "end".toList], isBlankLine l = false := by
    rw [List.forall_mem_cons, List.forall_mem_cons]
    exact ⟨hb.1, hb.2, by decide⟩
  have hn : (cells '\x01' (trim "end".toList)).length = (cells '\x01' (trim header)).length := by
    rw [length_cells (by decide), length_cells fun h => hd (trim_subset header h)]
  tfae_have 2 ↔ 1 := isRowCount_iff_exists_form
  tfae_have 3 ↔ 2 := rows_eq_nil_iff hlines hblank (by decide) hn
  tfae_have 4 ↔ 2 := body_eq_iff hl
  tfae_finish

/-- A row count with blanks wherever there may be some. -/
def sampleCount : List Char := "\t( 12\x0bRow  AFFECTED ) ".toList

/-- A parenthesis on its own is no row count. -/
theorem row_count_forms_sample :
    isRowCount sampleCount = true ∧
    (parse '\x01' (String.ofList (unlines ["H".toList, "-".toList, sampleCount,
      "end".toList]))).rows = [] ∧
    body (String.ofList (unlines [['a'], sampleCount, ['b']])) = "a\nb" ∧
    ¬ (∃ form : CountForm, form.text = ['(']) ∧
    (parse '\x01' (String.ofList (unlines ["H".toList, "-".toList, ['('], "end".toList]))).rows ≠
      [] := by
  have hw := @row_count_forms "H".toList "-".toList sampleCount (by decide) (by decide) (by decide)
  have hp := @row_count_forms "H".toList "-".toList ['('] (by decide) (by decide) (by decide)
  have hc : isRowCount sampleCount = true := by decide
  have hn : ¬ isRowCount ['('] = true := by decide
  exact ⟨hc, (hw.out 1 2).mp hc, (hw.out 1 3).mp hc, mt (hp.out 0 1).mp hn, mt (hp.out 2 1).mp hn⟩

end CatalogDdl.ResultSet
