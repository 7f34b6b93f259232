import CatalogDdl.Catalog.Decode
import CatalogDdl.Proofs.Fallible

/-!
# Values of fields

What is read in a field is read from its value in the row. Without a value there is nothing to read,
and a value that cannot be read is shown in the error.
-/
namespace CatalogDdl.ListedRow

variable {r : ListedRow} {field : String}

theorem value_eq_ok_iff {value : String} :
    r.value field = .ok value ↔ r.row.get? field = some value := by
  rw [ListedRow.value]
  cases r.row.get? field <;> simp

theorem value_eq_error_iff {e : Error} : r.value field = .error e ↔
    r.row.get? field = none ∧ e = .absentField r.listing field r.number := by
  rw [ListedRow.value]
  cases r.row.get? field <;> simp [eq_comm]

variable {α : Type} {read : List Char → Option α}

theorem reading_eq_ok_iff {x : α} : r.reading read field = .ok x ↔
    ∃ value, r.row.get? field = some value ∧ read value.toList = some x := by
  simp only [reading, bind_eq_ok_iff, value_eq_ok_iff]
  refine exists_congr fun value => and_congr_right fun _ => ?_
  cases read value.toList <;> simp

theorem reading_eq_error_iff {e : Error} : r.reading read field = .error e ↔
    r.row.get? field = none ∧ e = .absentField r.listing field r.number ∨
    ∃ value, r.row.get? field = some value ∧ read value.toList = none ∧
      e = .invalidValue r.listing field value r.number := by
  simp only [reading, bind_eq_error_iff, value_eq_ok_iff, value_eq_error_iff]
  refine or_congr_right (exists_congr fun value => and_congr_right fun _ => ?_)
  cases read value.toList <;> simp [eq_comm]

end CatalogDdl.ListedRow
