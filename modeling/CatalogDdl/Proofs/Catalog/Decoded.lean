import CatalogDdl.Proofs.Catalog.Field

/-!
# What decoded records are made of

Each record of a listing is decoded from one of its rows, and its texts are values of that row.
-/
namespace CatalogDdl

variable {α : Type} {decode : ListedRow → Except Error α} {rows : List Row} {records : List α}

/-- Each record is that of some row. -/
theorem exists_row_of_decodeFrom {listing : String} {number : Nat}
    (h : decodeFrom decode listing number rows = .ok records) {record : α} (hr : record ∈ records) :
    ∃ row ∈ rows, ∃ number, decode ⟨row, listing, number⟩ = .ok record := by
  induction rows generalizing number records with
  | nil =>
    cases h
    cases hr
  | cons row rest ih =>
    simp only [decodeFrom, bind_eq_ok_iff] at h
    obtain ⟨first, hf, others, ho, he⟩ := h
    cases he
    rcases List.mem_cons.mp hr with rfl | hr
    · exact ⟨row, List.mem_cons_self, number, hf⟩
    · obtain ⟨row, hm, hr⟩ := ih ho hr
      exact ⟨row, List.mem_cons_of_mem _ hm, hr⟩

/-- Each decoded record is that of a row. -/
theorem exists_row_of_decodeRows {listing : Listing}
    (h : decodeRows decode listing rows = .ok records) {record : α} (hr : record ∈ records) :
    ∃ row ∈ rows, ∃ number, decode ⟨row, listing.label, number⟩ = .ok record :=
  exists_row_of_decodeFrom h hr

/-- The texts of a column; its default is none of them if there is none. -/
def Column.texts (column : Column) : List String :=
  [column.table, column.name, column.dataType, column.identitySeed, column.identityIncrement]
    ++ column.defaultValue.toList

def PrimaryKeyPart.texts (part : PrimaryKeyPart) : List String :=
  [part.table, part.constraint, part.column]

def ForeignKeyPart.texts (part : ForeignKeyPart) : List String :=
  [part.constraint, part.table, part.column, part.referencedTable, part.referencedColumn]

def IndexPart.texts (part : IndexPart) : List String := [part.table, part.index, part.column]

theorem Row.mem_of_get? {row : Row} {field value : String} (h : row.get? field = some value) :
    value ∈ row.values := by
  obtain ⟨i, -, hi⟩ := Option.bind_eq_some_iff.mp h
  exact List.mem_of_getElem? hi

namespace ListedRow

variable {r : ListedRow} {field value : String}

theorem mem_of_value (h : r.value field = .ok value) : value ∈ r.row.values :=
  Row.mem_of_get? (value_eq_ok_iff.mp h)

theorem mem_of_value? (h : r.value? field = some value) : value ∈ r.row.values :=
  Row.mem_of_get? (Option.filter_eq_some_iff.mp h).1

/-- An absent value is read as the empty text. -/
theorem mem_or_empty (r : ListedRow) (field : String) :
    (r.value? field).getD "" ∈ r.row.values ∨ (r.value? field).getD "" = "" := by
  cases h : r.value? field with
  | none => exact .inr rfl
  | some value => exact .inl (mem_of_value? h)

end ListedRow

section Texts

variable {r : ListedRow}

/-- A column has no texts but those of its row. -/
theorem Column.mem_texts {column : Column} (h : Column.ofRow r = .ok column) :
    ∀ text ∈ column.texts, text ∈ r.row.values ∨ text = "" := by
  simp only [Column.ofRow, bind_eq_ok_iff] at h
  obtain ⟨_, ht, _, hn, _, hd, _, -, _, -, _, -, _, -, _, -, _, -, he⟩ := h
  cases he
  simp only [texts, List.forall_mem_append, List.forall_mem_cons, List.not_mem_nil,
    false_imp_iff, implies_true, and_true]
  refine ⟨⟨.inl (r.mem_of_value ht), .inl (r.mem_of_value hn), .inl (r.mem_of_value hd),
    r.mem_or_empty _, r.mem_or_empty _⟩, fun text hm => .inl ?_⟩
  exact r.mem_of_value? (Option.mem_toList.mp hm)

theorem PrimaryKeyPart.mem_texts {part : PrimaryKeyPart} (h : PrimaryKeyPart.ofRow r = .ok part) :
    ∀ text ∈ part.texts, text ∈ r.row.values := by
  simp only [PrimaryKeyPart.ofRow, bind_eq_ok_iff] at h
  obtain ⟨_, ht, _, hn, _, hc, _, -, he⟩ := h
  cases he
  simpa [texts] using ⟨r.mem_of_value ht, r.mem_of_value hn, r.mem_of_value hc⟩

theorem ForeignKeyPart.mem_texts {part : ForeignKeyPart} (h : ForeignKeyPart.ofRow r = .ok part) :
    ∀ text ∈ part.texts, text ∈ r.row.values := by
  simp only [ForeignKeyPart.ofRow, bind_eq_ok_iff] at h
  obtain ⟨_, hn, _, -, _, -, _, ht, _, hc, _, hr, _, hd, he⟩ := h
  cases he
  simpa [texts] using
    ⟨r.mem_of_value hn, r.mem_of_value ht, r.mem_of_value hc, r.mem_of_value hr, r.mem_of_value hd⟩

theorem IndexPart.mem_texts {part : IndexPart} (h : IndexPart.ofRow r = .ok part) :
    ∀ text ∈ part.texts, text ∈ r.row.values := by
  simp only [IndexPart.ofRow, bind_eq_ok_iff] at h
  obtain ⟨_, ht, _, hn, _, -, _, hc, _, -, he⟩ := h
  cases he
  simpa [texts] using ⟨r.mem_of_value ht, r.mem_of_value hn, r.mem_of_value hc⟩

theorem Routine.name_mem {kind : Routine.Kind} {routine : Routine}
    (h : Routine.ofRow kind r = .ok routine) :
    routine.name ∈ r.row.values := by
  unfold Routine.ofRow at h
  split at h
  · next hn =>
    cases h
    rcases Option.or_eq_some_iff.mp hn with hn | ⟨-, hn⟩
    · exact Row.mem_of_get? hn
    · exact Row.mem_of_get? hn
  · cases h

end Texts

/-- Routines are of the kind whose listing they are from. -/
theorem Routine.kind_of_ofRow {kind : Routine.Kind} {r : ListedRow} {routine : Routine}
    (h : Routine.ofRow kind r = .ok routine) : routine.kind = kind := by
  unfold Routine.ofRow at h
  split at h
  · cases h
    rfl
  · cases h

end CatalogDdl
