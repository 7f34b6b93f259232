import CatalogDdl.Proofs.ResultSet.Printed
import Mathlib.Order.Bounds.Basic

/-!
# Rows

A row has one value for each field, so the place at which a field is found is a place among the
values. Neither the fields nor the values of a row have anything in them that would end them on a
printed line.
-/
namespace CatalogDdl

/-- A place holds the first of the items that are equal to the given one. -/
theorem idxOf?_eq_some_iff_isLeast {α : Type} [BEq α] [LawfulBEq α] {items : List α} {item : α}
    {place : Nat} :
    items.idxOf? item = some place ↔ IsLeast {i | items[i]? = some item} place := by
  rw [List.idxOf?, List.findIdx?_eq_some_iff_getElem]
  constructor
  · rintro ⟨hp, he, hf⟩
    refine ⟨?_, fun i hi => ?_⟩
    · simpa [List.getElem?_eq_getElem hp] using he
    · by_contra hl
      obtain ⟨hi, rfl⟩ := List.getElem?_eq_some_iff.mp hi
      exact hf i (by omega) (by simp)
  · rintro ⟨he, hf⟩
    obtain ⟨hp, rfl⟩ := List.getElem?_eq_some_iff.mp he
    refine ⟨hp, by simp, fun i hi hb => ?_⟩
    have hm :
        items[i]? = some items[place] := by simpa [List.getElem?_eq_getElem (hi.trans hp)] using hb
    have hl := hf hm
    omega

namespace Row

variable {row : Row} {field : String} {place : Nat}

/-- The value of a field stands at the first place of the field. -/
theorem get?_of_isLeast (h : row.values.length = row.fields.length)
    (hp : IsLeast {i | row.fields[i]? = some field} place) :
    ∃ hi : place < row.values.length, row.get? field = some row.values[place] := by
  obtain ⟨hi, -⟩ := List.getElem?_eq_some_iff.mp hp.1
  rw [← h] at hi
  refine ⟨hi, ?_⟩
  rw [get?, idxOf?_eq_some_iff_isLeast.mpr hp, Option.bind_some, List.getElem?_eq_getElem hi]

theorem get?_eq_none_iff (h : row.values.length = row.fields.length) :
    row.get? field = none ↔ field ∉ row.fields := by
  refine ⟨fun hn hm => ?_, get?_eq_none_of_not_mem⟩
  obtain ⟨place, hp⟩ :=
    Option.ne_none_iff_exists'.mp (mt List.idxOf?_eq_none_iff.mp (not_not_intro hm))
  obtain ⟨hi, hv⟩ := get?_of_isLeast h (idxOf?_eq_some_iff_isLeast.mp hp)
  rw [hn] at hv
  cases hv

end Row

namespace ResultSet
open Text

variable {d : Char} {line : List Char} {value : String}

/-- Nothing is left in a field that could end it on a line of a printed result set. -/
theorem plain_of_mem_cells (hl : '\n' ∉ line) (h : value ∈ cells d line) : Plain d value := by
  have hu := unbroken_of_mem_cells hl h
  obtain ⟨cell, hc, rfl⟩ := List.mem_map.mp h
  refine ⟨?_, ?_, hu⟩
  · rw [String.toList_ofList]
    exact trimmed_trim cell
  · rw [String.toList_ofList]
    exact fun hm => not_mem_of_mem_splitOn hc (trim_subset cell hm)

/-- Each row of a printed text has as many values as fields. So a field is looked up within the row:
its value is the one at the first place of the field, and there is none if and only if the row has
no such field. No field and no value begins or ends with a blank or has the delimiter or a line feed
in it. -/
theorem rows_aligned (d : Char) (text : String) : ∀ row ∈ (parse d text).rows,
    row.values.length = row.fields.length ∧
    (∀ field place, IsLeast {i | row.fields[i]? = some field} place →
      ∃ hi : place < row.values.length, row.get? field = some row.values[place]) ∧
    (∀ field, row.get? field = none ↔ field ∉ row.fields) ∧
    ∀ entry ∈ row.fields ++ row.values, Plain d entry := by
  intro row hr
  obtain ⟨header, hh, line, hl, rfl, hw⟩ := exists_lines_of_mem_rows hr
  refine ⟨hw, fun field place hp => Row.get?_of_isLeast hw hp, fun field => Row.get?_eq_none_iff hw,
    ?_⟩
  rw [List.forall_mem_append]
  exact ⟨fun field hf => plain_of_mem_cells (unbroken_of_mem_contentLines hh) hf,
    fun value hv => plain_of_mem_cells (unbroken_of_mem_contentLines hl) hv⟩

/-- A field that is there twice has its first value, and a field may have an empty name. -/
theorem rows_aligned_sample : ∃ row ∈ (parse '|' "A| |A\n-\n1| 2\t|3\n4|5").rows,
    IsLeast {i | row.fields[i]? = some "A"} 0 ∧ row.get? "A" = some "1" ∧
    IsLeast {i | row.fields[i]? = some ""} 1 ∧ row.get? "" = some "2" ∧
    row.get? "B" = none ∧ ∀ entry ∈ row.fields ++ row.values, Plain '|' entry := by
  have hp : (parse '|' "A| |A\n-\n1| 2\t|3\n4|5").rows =
      [⟨["A", "", "A"], ["1", "2", "3"]⟩] := by decide
  have hr :
      (⟨["A", "", "A"], ["1", "2", "3"]⟩ : Row) ∈
        (parse '|' "A| |A\n-\n1| 2\t|3\n4|5").rows := by simp [hp]
  obtain ⟨-, hg, hn, ht⟩ := rows_aligned '|' _ _ hr
  have ha : IsLeast {i | ["A", "", "A"][i]? = some "A"} 0 :=
      idxOf?_eq_some_iff_isLeast.mp (by decide)
  have he : IsLeast {i | ["A", "", "A"][i]? = some ""} 1 :=
      idxOf?_eq_some_iff_isLeast.mp (by decide)
  exact ⟨_, hr, ha, (hg _ _ ha).2, he, (hg _ _ he).2, (hn _).mpr (by decide), ht⟩

end ResultSet
end CatalogDdl
