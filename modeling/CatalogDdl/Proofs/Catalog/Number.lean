import CatalogDdl.Proofs.Catalog.Numbered
import CatalogDdl.Proofs.Text.Signed

/-!
# Numbers in fields

A field is read as a number if its value is a numeral of thirty-two bits. No other value is taken
for one, and none is changed to fit: the error shows it as it stands. The numbers of a record are
those that its fields are read as.
-/
namespace CatalogDdl
open Text

namespace ListedRow

variable {r : ListedRow} {field : String}

/-- A field is read as a number if it holds a numeral of thirty-two bits. -/
theorem integer_eq_ok_iff {n : Int} : r.integer field = .ok n ↔ ∃ numeral : Numeral,
    r.row.get? field = some (String.ofList numeral.text) ∧ numeral.value = n ∧ FitsInt32 n := by
  simp only [integer, reading_eq_ok_iff, int32?_eq_some_iff]
  constructor
  · rintro ⟨value, hg, numeral, ht, hn⟩
    rw [← String.ofList_toList (s := value), ← ht] at hg
    exact ⟨numeral, hg, hn⟩
  · rintro ⟨numeral, hg, hn⟩
    exact ⟨_, hg, numeral, String.toList_ofList.symm, hn⟩

theorem integer_eq_error_iff {e : Error} : r.integer field = .error e ↔
    r.row.get? field = none ∧ e = .absentField r.listing field r.number ∨
    ∃ value, r.row.get? field = some value ∧
      (∀ numeral : Numeral, numeral.text = value.toList → ¬ FitsInt32 numeral.value) ∧
      e = .invalidValue r.listing field value r.number := by
  simp only [integer, reading_eq_error_iff, int32?_eq_none_iff]

/-- A numeral is read as it is digit by digit, without the zeros in front of it. -/
theorem integer_padded_eq_ok_iff {numeral : Numeral} {zeros : Nat}
    (hg : r.row.get? field = some (String.ofList (numeral.padded zeros).text)) {n : Int} :
    r.integer field = .ok n ↔ numeral.word? = some n := by
  have hi : int32? (numeral.padded zeros).text = numeral.word? := by
    rw [int32?_text, numeral.value_padded, numeral.word?_eq]
  rw [integer, reading_eq_ok_iff, hg, ← hi]
  simp

end ListedRow

def Entry.number? : Entry → Option Int
  | number n => some n
  | _ => none

namespace Listing

def numbers (listing : Listing) (record : listing.Record) : List (String × Int) :=
  (listing.fields.zip (listing.entries record)).filterMap fun (field, entry) =>
    entry.number?.map (field, ·)

@[simp] theorem numbers_columns (column : Column) : columns.numbers column =
    [("MaxLength", column.maxLength), ("Precision", column.precision), ("Scale", column.scale),
     ("ColumnOrder", column.ordinal)] := rfl

@[simp] theorem numbers_primaryKeys (part : PrimaryKeyPart) :
    primaryKeys.numbers part = [("KeyOrder", part.position)] := rfl

@[simp] theorem numbers_indexes (part : IndexPart) :
    indexes.numbers part = [("KeyOrder", part.position)] := rfl

end Listing

section Row

variable {r : ListedRow}

theorem Column.integer_of_ofRow {column : Column} (h : Column.ofRow r = .ok column) :
    ∀ p ∈ Listing.columns.numbers column, r.integer p.1 = .ok p.2 := by
  simp only [Column.ofRow, bind_eq_ok_iff] at h
  obtain ⟨_, -, _, -, _, -, _, hl, _, hp, _, hs, _, -, _, -, _, ho, he⟩ := h
  cases he
  simpa using ⟨hl, hp, hs, ho⟩

theorem PrimaryKeyPart.integer_of_ofRow {part : PrimaryKeyPart}
    (h : PrimaryKeyPart.ofRow r = .ok part) :
    ∀ p ∈ Listing.primaryKeys.numbers part, r.integer p.1 = .ok p.2 := by
  simp only [PrimaryKeyPart.ofRow, bind_eq_ok_iff] at h
  obtain ⟨_, -, _, -, _, -, _, ho, he⟩ := h
  cases he
  simpa using ho

theorem IndexPart.integer_of_ofRow {part : IndexPart} (h : IndexPart.ofRow r = .ok part) :
    ∀ p ∈ Listing.indexes.numbers part, r.integer p.1 = .ok p.2 := by
  simp only [IndexPart.ofRow, bind_eq_ok_iff] at h
  obtain ⟨_, -, _, -, _, -, _, -, _, ho, he⟩ := h
  cases he
  simpa using ho

end Row

theorem Listing.integer_of_ofRow {r : ListedRow} {listing : Listing} {record : listing.Record}
    (h : listing.ofRow r = .ok record) : ∀ p ∈ listing.numbers record, r.integer p.1 = .ok p.2 := by
  cases listing with
  | columns => exact Column.integer_of_ofRow h
  | primaryKeys => exact PrimaryKeyPart.integer_of_ofRow h
  | indexes => exact IndexPart.integer_of_ofRow h
  | foreignKeys | procedures | views => exact fun p hp => nomatch hp

namespace ListedRow

/-- A field is read as a number if and only if its value is a numeral of that number, signed or not,
and the number is one of thirty-two bits. There is an error if and only if the field is missing or
has any other value, which the error shows. Zeros in front of a numeral change nothing of this, and
its number can be put together digit by digit without leaving the range. A record has the numbers
that its fields are read as. -/
theorem integer_by_numeral (r : ListedRow) (field : String) :
    (∀ n, r.integer field = .ok n ↔ ∃ numeral : Numeral,
      r.row.get? field = some (String.ofList numeral.text) ∧ numeral.value = n ∧ FitsInt32 n) ∧
    (∀ e, r.integer field = .error e ↔
      r.row.get? field = none ∧ e = .absentField r.listing field r.number ∨
      ∃ value, r.row.get? field = some value ∧
        (∀ numeral : Numeral, numeral.text = value.toList → ¬ FitsInt32 numeral.value) ∧
        e = .invalidValue r.listing field value r.number) ∧
    (∀ (numeral : Numeral) (zeros : Nat), r.row.get? field =
      some (String.ofList (numeral.padded zeros).text) →
      ∀ n, r.integer field = .ok n ↔ numeral.word? = some n) ∧
    ∀ (listing : Listing) (record : listing.Record), listing.ofRow r = .ok record →
      ∀ n, (field, n) ∈ listing.numbers record → r.integer field = .ok n := by
  refine ⟨fun n => integer_eq_ok_iff, fun e => integer_eq_error_iff, fun numeral zeros hg n => ?_,
    fun listing record h n hn => ?_⟩
  · exact integer_padded_eq_ok_iff hg
  · exact Listing.integer_of_ofRow h (field, n) hn

def sampleRow (position : String) : ListedRow := ⟨Listing.sampleKeyRow position, "primary keys", 1⟩

/-- The least number of thirty-two bits. -/
def sampleNumeral : Numeral :=
  ⟨.minus, "2147483648".toList, by decide, List.all_eq_true.mp (by decide)⟩

/-- The least number is read behind zeros. Without its sign it is out of the range, and a sign alone
is no numeral. -/
theorem integer_by_numeral_sample :
    ((sampleRow "-0002147483648").row.get? "KeyOrder" =
      some (String.ofList (sampleNumeral.padded 3).text) ∧
      sampleNumeral.word? = some (-2147483648) ∧
      (sampleRow "-0002147483648").integer "KeyOrder" = .ok (-2147483648)) ∧
    (PrimaryKeyPart.ofRow (sampleRow "+12") = .ok ⟨"T", "PK", "C", 12⟩ ∧
      (sampleRow "+12").integer "KeyOrder" = .ok 12) ∧
    (sampleRow "2147483648").integer "KeyOrder" =
      .error (.invalidValue "primary keys" "KeyOrder" "2147483648" 1) ∧
    (sampleRow "-").integer "KeyOrder" =
      .error (.invalidValue "primary keys" "KeyOrder" "-" 1) := by
  have hg : (sampleRow "-0002147483648").row.get? "KeyOrder" =
      some (String.ofList (sampleNumeral.padded 3).text) := by decide
  have hw : sampleNumeral.word? = some (-2147483648) := by decide
  have hd : PrimaryKeyPart.ofRow (sampleRow "+12") = .ok ⟨"T", "PK", "C", 12⟩ := by decide
  obtain ⟨-, -, hz, -⟩ := integer_by_numeral (sampleRow "-0002147483648") "KeyOrder"
  obtain ⟨-, -, -, hp⟩ := integer_by_numeral (sampleRow "+12") "KeyOrder"
  refine ⟨⟨hg, hw, (hz _ 3 hg _).mpr hw⟩, ⟨hd, hp .primaryKeys _ hd _ List.mem_cons_self⟩, ?_, ?_⟩
  · refine ((integer_by_numeral _ _).2.1 _).mpr (.inr ⟨"2147483648", by decide, ?_, rfl⟩)
    exact int32?_eq_none_iff.mp (by decide)
  · refine ((integer_by_numeral _ _).2.1 _).mpr (.inr ⟨"-", by decide, ?_, rfl⟩)
    exact int32?_eq_none_iff.mp (by decide)

end ListedRow
end CatalogDdl
