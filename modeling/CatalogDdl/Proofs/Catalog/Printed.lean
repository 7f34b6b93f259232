import CatalogDdl.Proofs.Catalog.Entry

/-!
# Listings are read back

A listing that is printed under the field names of its query is decoded to the printed records, in
order. A printed record has a bar between its values, so its line is neither blank nor a row count.
-/
namespace CatalogDdl
open Text ResultSet

def Column.entries (c : Column) : List Entry :=
  [.text c.table, .text c.name, .text c.dataType, .number c.maxLength, .number c.precision,
    .number c.scale, .truth c.isNullable, .truth c.isIdentity, .ofText c.identitySeed,
    .ofText c.identityIncrement,
   .optional c.defaultValue, .number c.ordinal]

def PrimaryKeyPart.entries (p : PrimaryKeyPart) : List Entry :=
  [.text p.table, .text p.constraint, .text p.column, .number p.position]

def ForeignKeyPart.entries (p : ForeignKeyPart) : List Entry :=
  [.text p.table, .text p.constraint, .text p.column, .text p.referencedTable,
    .text p.referencedColumn, .action p.onDelete, .action p.onUpdate]

def IndexPart.entries (p : IndexPart) : List Entry :=
  [.text p.table, .text p.index, .truth p.isUnique, .text p.column, .number p.position]

def Routine.entries (r : Routine) : List Entry := [.text r.name, .text r.definition]

namespace Listing

/-- The records that a listing is decoded to. -/
def Record : Listing → Type
  | columns => Column
  | primaryKeys => PrimaryKeyPart
  | foreignKeys => ForeignKeyPart
  | indexes => IndexPart
  | procedures => Routine
  | views => Routine

def ofRows : (listing : Listing) → List Row → Except Error (List listing.Record)
  | columns => Column.ofRows
  | primaryKeys => PrimaryKeyPart.ofRows
  | foreignKeys => ForeignKeyPart.ofRows
  | indexes => IndexPart.ofRows
  | procedures => Routine.ofRows .procedure
  | views => Routine.ofRows .view

/-- The entries of a record, in the order of the fields of its listing. -/
def entries : (listing : Listing) → listing.Record → List Entry
  | columns => Column.entries
  | primaryKeys => PrimaryKeyPart.entries
  | foreignKeys => ForeignKeyPart.entries
  | indexes => IndexPart.entries
  | procedures => Routine.entries
  | views => Routine.entries

/-- A listing of routines holds those of one kind. -/
def Holds : (listing : Listing) → listing.Record → Prop
  | procedures, routine => Routine.kind routine = .procedure
  | views, routine => Routine.kind routine = .view
  | _, _ => True

structure Printable (listing : Listing) (record : listing.Record) : Prop where
  holds : listing.Holds record
  entries : ∀ entry ∈ listing.entries record, entry.Printable

def Shows (listing : Listing) (record : listing.Record) (values : List String) : Prop :=
  List.Forall₂ Entry.Shows (listing.entries record) values

/-- A printed listing of `n` rows with more lines after it. -/
def printed (listing : Listing) (ruled : List Char) (rows : List (List String)) (n : Nat)
    (more : List (List Char)) : String :=
  String.ofList (unlines ((joined '|' listing.fields :: ruled :: rows.map (joined '|'))
    ++ countLine n :: more))

end Listing

section Decoding
open ListedRow

variable {r : ListedRow}

/-- A row that shows the entries of a column is decoded to it. -/
theorem Column.ofRow_of_shows {c : Column} (h : r.ShowsAll Listing.columns.fields c.entries) :
    Column.ofRow r = .ok c := by
  obtain ⟨table, name, dataType, maxLength, precision, scale, isNullable, isIdentity,
    seed, increment, default, ordinal, -⟩ := h
  rw [Column.ofRow, value_of_shows table, value_of_shows name, value_of_shows dataType,
    integer_of_shows maxLength, integer_of_shows precision, integer_of_shows scale,
    truth_of_shows isNullable, truth_of_shows isIdentity, integer_of_shows ordinal,
    text_of_shows seed, text_of_shows increment, value?_of_shows default]
  rfl

theorem PrimaryKeyPart.ofRow_of_shows {part : PrimaryKeyPart}
    (h : r.ShowsAll Listing.primaryKeys.fields part.entries) :
    PrimaryKeyPart.ofRow r = .ok part := by
  obtain ⟨table, constraint, column, position, -⟩ := h
  rw [PrimaryKeyPart.ofRow, value_of_shows table, value_of_shows constraint, value_of_shows column,
    integer_of_shows position]
  rfl

theorem ForeignKeyPart.ofRow_of_shows {part : ForeignKeyPart}
    (h : r.ShowsAll Listing.foreignKeys.fields part.entries) :
    ForeignKeyPart.ofRow r = .ok part := by
  obtain ⟨table, constraint, column, referencedTable, referencedColumn, onDelete, onUpdate, -⟩ := h
  rw [ForeignKeyPart.ofRow, value_of_shows constraint, value_of_shows table, value_of_shows column,
    value_of_shows referencedTable, value_of_shows referencedColumn]
  simp only [bind, Except.bind, action_of_shows onDelete, action_of_shows onUpdate]
  rfl

theorem IndexPart.ofRow_of_shows {part : IndexPart}
    (h : r.ShowsAll Listing.indexes.fields part.entries) :
    IndexPart.ofRow r = .ok part := by
  obtain ⟨table, index, isUnique, column, position, -⟩ := h
  rw [IndexPart.ofRow, value_of_shows table, value_of_shows index, truth_of_shows isUnique,
    value_of_shows column, integer_of_shows position]
  rfl

/-- The listing of a kind has the name of a routine under the field of that kind. -/
theorem Routine.ofRow_of_shows {kind : Routine.Kind} {routine : Routine} (hk : routine.kind = kind)
    (h : r.ShowsAll kind.listing.fields routine.entries) : Routine.ofRow kind r = .ok routine := by
  have hf : kind.listing.fields = [kind.namedBy, "Definition"] := by cases kind <;> rfl
  rw [hf] at h
  obtain ⟨⟨-, _, hn, ⟨⟩⟩, ⟨-, _, hd, ⟨⟩⟩, -⟩ := h
  subst hk
  simp [Routine.ofRow, hn, hd]

/-- A listing is decoded if each of its rows is, whatever its number. -/
theorem decodeRows_eq_ok {α : Type} {decode : ListedRow → Except Error α} {listing : Listing}
    {records : List α} {rows : List Row} (h : List.Forall₂
      (fun record row => ∀ number, decode ⟨row, listing.label, number⟩ = .ok record) records rows) :
    decodeRows decode listing rows = .ok records := by
  have hd : ∀ number, decodeFrom decode listing.label number rows = .ok records := by
    induction h with
    | nil => exact fun number => rfl
    | cons hr _ ih =>
      intro number
      rw [decodeFrom, hr number, ih (number + 1)]
      rfl
  exact hd 1

end Decoding

namespace Listing

variable {listing : Listing}

theorem nodup_fields (listing : Listing) : listing.fields.Nodup := by
  cases listing <;> decide

theorem two_le_length_fields (listing : Listing) : 2 ≤ listing.fields.length := by
  cases listing <;> decide

theorem plain_fields (listing : Listing) : ∀ field ∈ listing.fields, Plain '|' field := by
  cases listing <;> decide

theorem length_entries (record : listing.Record) :
    (listing.entries record).length = listing.fields.length := by
  cases listing <;> rfl

/-- A record has as many values as its listing has fields, and all of them are plain. -/
theorem plain_values {record : listing.Record} {values : List String}
    (hp : listing.Printable record) (hs : listing.Shows record values) :
    values.length = listing.fields.length ∧ ∀ value ∈ values, Plain '|' value := by
  refine ⟨hs.length_eq.symm.trans (length_entries record), fun value hv => ?_⟩
  obtain ⟨entry, he, hs⟩ := exists_left_of_mem hs hv
  exact Entry.plain_of_shows (hp.entries entry he) hs

/-- Each row that shows a record is decoded to it, so the listing is. -/
theorem ofRows_of_shows {records : List listing.Record} {rows : List (List String)}
    (hp : ∀ record ∈ records, listing.Printable record)
    (hs : List.Forall₂ listing.Shows records rows) :
    listing.ofRows (rows.map (Row.mk listing.fields)) = .ok records := by
  have h := (List.forall₂_and_left _ _).mpr ⟨hp, hs⟩
  have hr : List.Forall₂ (fun record row => listing.Holds record ∧ ∀ number,
      ListedRow.ShowsAll ⟨row, listing.label, number⟩ listing.fields (listing.entries record))
      records (rows.map (Row.mk listing.fields)) :=
    List.forall₂_map_right_iff.mpr (h.imp fun _ _ ⟨hp, hs⟩ =>
      ⟨hp.holds, fun _ => ListedRow.showsAll_of_forall₂ (nodup_fields listing) hp.entries hs _ _⟩)
  cases listing with
  | columns =>
    exact decodeRows_eq_ok (hr.imp fun _ _ h number => Column.ofRow_of_shows (h.2 number))
  | primaryKeys =>
    exact decodeRows_eq_ok (hr.imp fun _ _ h number => PrimaryKeyPart.ofRow_of_shows (h.2 number))
  | foreignKeys =>
    exact decodeRows_eq_ok (hr.imp fun _ _ h number => ForeignKeyPart.ofRow_of_shows (h.2 number))
  | indexes =>
    exact decodeRows_eq_ok (hr.imp fun _ _ h number => IndexPart.ofRow_of_shows (h.2 number))
  | procedures =>
    exact decodeRows_eq_ok (hr.imp fun _ _ h number => Routine.ofRow_of_shows h.1 (h.2 number))
  | views =>
    exact decodeRows_eq_ok (hr.imp fun _ _ h number => Routine.ofRow_of_shows h.1 (h.2 number))

/-- The line of two or more values is not blank. -/
theorem not_isBlankLine_joined {values : List String} (h : 2 ≤ values.length) :
    isBlankLine (joined '|' values) = false := by
  rw [isBlankLine, List.all_eq_false]
  exact ⟨'|', delimiter_mem_joined h, by decide⟩

/-- The line of two or more values is no row count. -/
theorem not_isRowCount_joined {values : List String} (h : 2 ≤ values.length) :
    isRowCount (joined '|' values) = false := by
  cases hc : isRowCount (joined '|' values) with
  | false => rfl
  | true => exact absurd (delimiter_mem_joined h) (bar_not_mem_of_isRowCount hc)

/-- Between a header and rows of two or more values no line is blank. -/
theorem filter_lines {fields : List String} {rows : List (List String)} {ruled : List Char}
    (hf : 2 ≤ fields.length) (hr : ∀ values ∈ rows, 2 ≤ values.length)
    (hb : isBlankLine ruled = false) :
    (joined '|' fields :: ruled :: rows.map (joined '|')).filter (!isBlankLine ·) =
      joined '|' fields :: ruled :: rows.map (joined '|') := by
  simp only [List.filter_eq_self, Bool.not_eq_true']
  refine List.forall_mem_cons.mpr ⟨not_isBlankLine_joined hf, List.forall_mem_cons.mpr ⟨hb, ?_⟩⟩
  exact List.forall_mem_map.mpr fun values hm => not_isBlankLine_joined (hr values hm)

/-- The rows of a printed listing are those that were printed, if all of them are wide enough. -/
theorem parse_printed_rows {rows : List (List String)} (hv : ∀ values ∈ rows,
      values.length = listing.fields.length ∧ ∀ value ∈ values, Plain '|' value)
    {ruled : List Char} (hb : isBlankLine ruled = false) (hn : '\n' ∉ ruled) (n : Nat)
    (more : List (List Char)) : parse '|' (listing.printed ruled rows n more) =
      { rows := rows.map (Row.mk listing.fields), skipped := 0 } := by
  have hl : ∀ values ∈ rows, 2 ≤ values.length := by
    intro values hm
    rw [(hv values hm).1]
    exact two_le_length_fields listing
  have hpl : ∀ values ∈ listing.fields :: rows, ∀ value ∈ values, Plain '|' value :=
    List.forall_mem_cons.mpr ⟨plain_fields listing, fun values hm => (hv values hm).2⟩
  have hd : isBlank '|' = false := by decide
  have hf : listing.fields ≠ [] := by
    have := two_le_length_fields listing
    exact List.ne_nil_of_length_pos (by omega)
  rw [printed, parse_unlines hd hf (fun values hm => (hv values hm).1) hpl
    (fun values hm => not_isRowCount_joined (hl values hm)) (unbroken_lines hd hpl hn)
    (filter_lines (two_le_length_fields listing) hl hb) (ending_countLine n more)]

theorem plain_rows {records : List listing.Record} {rows : List (List String)}
    (hp : ∀ record ∈ records, listing.Printable record)
    (hs : List.Forall₂ listing.Shows records rows) : ∀ values ∈ rows,
      values.length = listing.fields.length ∧ ∀ value ∈ values, Plain '|' value := by
  intro values hm
  obtain ⟨record, hr, hs⟩ := exists_left_of_mem hs hm
  exact plain_values (hp record hr) hs

/-- Printed records are decoded to the same records in the same order, and no line is counted as
bad, whatever stands in the ruled line and after the row count. -/
theorem ofRows_printed {records : List listing.Record} {rows : List (List String)}
    (hp : ∀ record ∈ records, listing.Printable record)
    (hs : List.Forall₂ listing.Shows records rows)
    {ruled : List Char} (hb : isBlankLine ruled = false) (hn : '\n' ∉ ruled) (n : Nat)
    (more : List (List Char)) :
    listing.ofRows (parse '|' (listing.printed ruled rows n more)).rows = .ok records ∧
      (parse '|' (listing.printed ruled rows n more)).skipped = 0 := by
  rw [parse_printed_rows (plain_rows hp hs) hb hn n more]
  exact ⟨ofRows_of_shows hp hs, rfl⟩

/-- A column with the least and the greatest number, an empty type, and no value in three fields. -/
def sampleColumn : Column where
  table := "t"
  name := "(1 row affected)"
  dataType := ""
  maxLength := -2147483648
  precision := 2147483647
  scale := 0
  isNullable := false
  isIdentity := true
  identitySeed := ""
  identityIncrement := ""
  defaultValue := none
  ordinal := 1

/-- Its absent values, printed in one way and in the other. -/
def sampleValues : List String :=
  ["t", "(1 row affected)", "", "-2147483648", "2147483647", "0", "0", "1", "", "NULL", "NULL", "1"]

/-- A column of the table without a name, with a value in every other field. -/
def namelessColumn : Column :=
  ⟨"", "Id", "bigint", 8, 19, -1, true, false, "1", "-1", some "(0)", 2⟩

def namelessValues : List String :=
  ["", "Id", "bigint", "8", "19", "-1", "1", "0", "1", "-1", "(0)", "2"]

def sampleText : String :=
  columns.printed ['-'] [sampleValues, namelessValues] 2 ["t|a".toList]

/-- A listing of two procedures. The line of the second ends with the bar before an empty body. -/
def procedureText : String :=
  procedures.printed ['-'] [["p", "SELECT 1"], ["q", ""]] 2 []

/-- Two columns with limits and absent values, and two procedures of which one has no body. -/
theorem ofRows_printed_sample :
    Column.ofRows (parse '|' sampleText).rows = .ok [sampleColumn, namelessColumn] ∧
    (parse '|' sampleText).skipped = 0 ∧
    Routine.ofRows .procedure (parse '|' procedureText).rows =
      .ok [⟨.procedure, "p", "SELECT 1"⟩, ⟨.procedure, "q", ""⟩] := by
  have hp : ∀ record ∈ [sampleColumn, namelessColumn], columns.Printable record := by
    refine List.forall_mem_cons.mpr ⟨⟨trivial, by decide⟩, List.forall_mem_singleton.mpr ?_⟩
    exact ⟨trivial, by decide⟩
  have hs : columns.Shows sampleColumn sampleValues :=
    .cons (.text _) <| .cons (.text _) <| .cons (.text _) <| .cons (.number (-2147483648)) <|
    .cons (.number 2147483647) <| .cons (.number 0) <| .cons .no <| .cons .yes <| .cons .empty <|
    .cons .null <| .cons .null <| .cons (.number 1) .nil
  have hn : columns.Shows namelessColumn namelessValues :=
    .cons (.text _) <| .cons (.text _) <| .cons (.text _) <| .cons (.number 8) <|
    .cons (.number 19) <| .cons (.number (-1)) <| .cons .yes <| .cons .no <|
    .cons (.present "1") <| .cons (.present "-1") <| .cons (.present "(0)") <|
    .cons (.number 2) .nil
  have hr : ∀ routine ∈ [(⟨.procedure, "p", "SELECT 1"⟩ : Routine), ⟨.procedure, "q", ""⟩],
      procedures.Printable routine := by
    refine List.forall_mem_cons.mpr ⟨⟨rfl, by decide⟩, List.forall_mem_singleton.mpr ?_⟩
    exact ⟨rfl, by decide⟩
  have hq (name body : String) :
      procedures.Shows (⟨.procedure, name, body⟩ : Routine) [name, body] :=
    .cons (.text _) (.cons (.text _) .nil)
  obtain ⟨hc, hz⟩ := @ofRows_printed columns _ [sampleValues, namelessValues] hp
    (.cons hs (.cons hn .nil)) ['-'] (by decide) (by decide) 2 ["t|a".toList]
  obtain ⟨hb, -⟩ := @ofRows_printed procedures _ [["p", "SELECT 1"], ["q", ""]] hr
    (.cons (hq _ _) (.cons (hq _ _) .nil)) ['-'] (by decide) (by decide) 2 []
  exact ⟨hc, hz, hb⟩

end Listing
end CatalogDdl
