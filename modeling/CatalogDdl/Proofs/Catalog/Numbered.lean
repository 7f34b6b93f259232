import CatalogDdl.Proofs.Catalog.Printed

/-!
# Numbers of rows

The number of a row has no part in its record, and an error shows it if it shows a number at all. So
rows behind others are decoded as they are on their own, but for the number in their error. A
listing has one record for each of its rows, or the error of its first row without a record.
-/
namespace CatalogDdl

namespace Error

/-- The number of the row that the error is about, if it shows one. -/
def row? : Error → Option Nat
  | absentField _ _ row | invalidValue _ _ _ row => some row
  | unreadable .. | unwritable .. | defect _ => none

/-- The error as it is with so many rows in front. -/
def behind (rows : Nat) : Error → Error
  | absentField listing field row => absentField listing field (row + rows)
  | invalidValue listing field value row => invalidValue listing field value (row + rows)
  | unreadable path fault => unreadable path fault
  | unwritable path => unwritable path
  | defect d => defect d

/-- Holds of the error of an action that is unknown. It shows its foreign key and not its row. -/
def IsUnknownAction : Error → Prop
  | defect (.unknownAction ..) => True
  | _ => False

end Error

namespace ListedRow

/-- The row as it is with so many rows in front. -/
def behind (rows : Nat) (r : ListedRow) : ListedRow := { r with number := r.number + rows }

variable (rows : Nat) (r : ListedRow) (field : String)

abbrev ShowsNumber {α : Type} : Except Error α → Prop := FailsBy fun e => e.row? = some r.number

theorem showsNumber_value : r.ShowsNumber (r.value field) := by
  intro e h
  obtain ⟨-, rfl⟩ := value_eq_error_iff.mp h
  rfl

theorem showsNumber_reading {α : Type} (read : List Char → Option α) :
    r.ShowsNumber (r.reading read field) := by
  intro e h
  rcases reading_eq_error_iff.mp h with ⟨-, rfl⟩ | ⟨_, -, -, rfl⟩
  · rfl
  · rfl

theorem showsNumber_integer : r.ShowsNumber (r.integer field) := r.showsNumber_reading field _

theorem showsNumber_truth : r.ShowsNumber (r.truth field) := r.showsNumber_reading field _

theorem failsBy_action (constraint : String) : FailsBy
    (fun e => e.row? = some r.number ∨ e.IsUnknownAction) (r.action constraint field) := by
  refine FailsBy.bind ((r.showsNumber_value field).mono fun _ => .inl) fun name e h => ?_
  split at h
  · cases h
  · cases h
    exact .inr trivial

theorem value_behind :
    (r.behind rows).value field = (r.value field).mapError (Error.behind rows) := by
  simp only [value, behind]
  cases r.row.get? field <;> rfl

theorem value?_behind : (r.behind rows).value? field = r.value? field := rfl

theorem reading_behind {α : Type} (read : List Char → Option α) :
    (r.behind rows).reading read field = (r.reading read field).mapError (Error.behind rows) := by
  rw [reading, reading, mapError_bind, value_behind]
  congr 1
  funext value
  cases read value.toList <;> rfl

theorem integer_behind :
    (r.behind rows).integer field = (r.integer field).mapError (Error.behind rows) :=
  reading_behind rows r field _

theorem truth_behind : (r.behind rows).truth field = (r.truth field).mapError (Error.behind rows) :=
  reading_behind rows r field _

theorem action_behind (constraint : String) :
    (r.behind rows).action constraint field =
      (r.action constraint field).mapError (Error.behind rows) := by
  rw [action, action, mapError_bind, value_behind]
  congr 1
  funext value
  cases ReferentialAction.ofName? value <;> rfl

end ListedRow

section Row

variable (rows : Nat) (r : ListedRow)

theorem Column.ofRow_behind :
    Column.ofRow (r.behind rows) = (Column.ofRow r).mapError (Error.behind rows) := by
  simp only [Column.ofRow, mapError_bind, ListedRow.value_behind, ListedRow.integer_behind,
    ListedRow.truth_behind, ListedRow.value?_behind]
  rfl

theorem PrimaryKeyPart.ofRow_behind :
    PrimaryKeyPart.ofRow (r.behind rows) =
      (PrimaryKeyPart.ofRow r).mapError (Error.behind rows) := by
  simp only [PrimaryKeyPart.ofRow, mapError_bind, ListedRow.value_behind, ListedRow.integer_behind]
  rfl

theorem ForeignKeyPart.ofRow_behind :
    ForeignKeyPart.ofRow (r.behind rows) =
      (ForeignKeyPart.ofRow r).mapError (Error.behind rows) := by
  simp only [ForeignKeyPart.ofRow, mapError_bind, ListedRow.value_behind, ListedRow.action_behind]
  rfl

theorem IndexPart.ofRow_behind :
    IndexPart.ofRow (r.behind rows) = (IndexPart.ofRow r).mapError (Error.behind rows) := by
  simp only [IndexPart.ofRow, mapError_bind, ListedRow.value_behind, ListedRow.integer_behind,
    ListedRow.truth_behind]
  rfl

theorem Routine.ofRow_behind (kind : Routine.Kind) :
    Routine.ofRow kind (r.behind rows) = (Routine.ofRow kind r).mapError (Error.behind rows) := by
  simp only [Routine.ofRow, ListedRow.behind]
  cases (r.row.get? kind.namedBy).or (r.row.get? "Name") <;> rfl

theorem Column.showsNumber_ofRow : r.ShowsNumber (Column.ofRow r) :=
  .bind (r.showsNumber_value _) fun _ => .bind (r.showsNumber_value _) fun _ =>
    .bind (r.showsNumber_value _) fun _ =>
  .bind (r.showsNumber_integer _) fun _ => .bind (r.showsNumber_integer _) fun _ =>
  .bind (r.showsNumber_integer _) fun _ => .bind (r.showsNumber_truth _) fun _ =>
  .bind (r.showsNumber_truth _) fun _ => .bind (r.showsNumber_integer _) fun _ => .ok _ _

theorem PrimaryKeyPart.showsNumber_ofRow : r.ShowsNumber (PrimaryKeyPart.ofRow r) :=
  .bind (r.showsNumber_value _) fun _ => .bind (r.showsNumber_value _) fun _ =>
    .bind (r.showsNumber_value _) fun _ =>
  .bind (r.showsNumber_integer _) fun _ => .ok _ _

theorem IndexPart.showsNumber_ofRow : r.ShowsNumber (IndexPart.ofRow r) :=
  .bind (r.showsNumber_value _) fun _ => .bind (r.showsNumber_value _) fun _ =>
    .bind (r.showsNumber_truth _) fun _ =>
  .bind (r.showsNumber_value _) fun _ => .bind (r.showsNumber_integer _) fun _ => .ok _ _

theorem Routine.showsNumber_ofRow (kind : Routine.Kind) : r.ShowsNumber (Routine.ofRow kind r) := by
  intro e h
  unfold Routine.ofRow at h
  split at h
  · cases h
  · cases h
    rfl

theorem ForeignKeyPart.failsBy_ofRow :
    FailsBy (fun e => e.row? = some r.number ∨ e.IsUnknownAction) (ForeignKeyPart.ofRow r) := by
  have hv (field : String) :
      FailsBy (fun e => e.row? = some r.number ∨ e.IsUnknownAction) (r.value field) :=
    (r.showsNumber_value field).mono fun _ => .inl
  exact .bind (hv _) fun _ => .bind (r.failsBy_action _ _) fun _ =>
    .bind (r.failsBy_action _ _) fun _ =>
    .bind (hv _) fun _ => .bind (hv _) fun _ => .bind (hv _) fun _ => .bind (hv _) fun _ => .ok _ _

end Row

namespace Listing

def ofRow : (listing : Listing) → ListedRow → Except Error listing.Record
  | columns => Column.ofRow
  | primaryKeys => PrimaryKeyPart.ofRow
  | foreignKeys => ForeignKeyPart.ofRow
  | indexes => IndexPart.ofRow
  | procedures => Routine.ofRow .procedure
  | views => Routine.ofRow .view

theorem ofRows_eq (listing : Listing) (rows : List Row) :
    listing.ofRows rows = decodeFrom listing.ofRow listing.label 1 rows := by
  cases listing <;> rfl

/-- Rows in front of a row change nothing of it but the number in its error. -/
theorem ofRow_behind (listing : Listing) (rows : Nat) (r : ListedRow) :
    listing.ofRow (r.behind rows) = (listing.ofRow r).mapError (Error.behind rows) := by
  cases listing with
  | columns => exact Column.ofRow_behind rows r
  | primaryKeys => exact PrimaryKeyPart.ofRow_behind rows r
  | foreignKeys => exact ForeignKeyPart.ofRow_behind rows r
  | indexes => exact IndexPart.ofRow_behind rows r
  | procedures => exact Routine.ofRow_behind rows r .procedure
  | views => exact Routine.ofRow_behind rows r .view

/-- The error of a row shows its number, unless it is an unknown action of a foreign key. -/
theorem failsBy_ofRow (listing : Listing) (r : ListedRow) :
    FailsBy (fun e => e.row? = some r.number ∨ listing = .foreignKeys ∧ e.IsUnknownAction)
      (listing.ofRow r) := by
  cases listing with
  | columns => exact (Column.showsNumber_ofRow r).mono fun _ => .inl
  | primaryKeys => exact (PrimaryKeyPart.showsNumber_ofRow r).mono fun _ => .inl
  | foreignKeys =>
    exact (ForeignKeyPart.failsBy_ofRow r).mono fun _ he => he.imp_right fun h => ⟨rfl, h⟩
  | indexes => exact (IndexPart.showsNumber_ofRow r).mono fun _ => .inl
  | procedures => exact (Routine.showsNumber_ofRow r .procedure).mono fun _ => .inl
  | views => exact (Routine.showsNumber_ofRow r .view).mono fun _ => .inl

def numbered (listing : Listing) (rows : List Row) : List ListedRow :=
  rows.mapIdx fun i row => ⟨row, listing.label, i + 1⟩

/-- Rows further down are numbered on. -/
theorem numbered_append (listing : Listing) (a b : List Row) : listing.numbered (a ++ b) =
    listing.numbered a ++ (listing.numbered b).map (ListedRow.behind a.length) := by
  rw [numbered, List.mapIdx_append]
  congr 1
  refine List.mapIdx_eq_iff.mpr fun i => ?_
  simp only [numbered, List.getElem?_map, List.getElem?_mapIdx, Option.map_map]
  congr 1
  funext row
  simp only [Function.comp_apply, ListedRow.behind, ListedRow.mk.injEq, true_and]
  omega

/-- A listing is decoded row by row. -/
theorem ofRows_eq_mapM (listing : Listing) (rows : List Row) :
    listing.ofRows rows = (listing.numbered rows).mapM listing.ofRow := by
  have h (number : Nat) : decodeFrom listing.ofRow listing.label number rows =
      List.mapM listing.ofRow
        (rows.mapIdx fun i row => (⟨row, listing.label, number + i⟩ : ListedRow)) := by
    induction rows generalizing number with
    | nil => rfl
    | cons row rest ih =>
      have hi : (fun i row => (⟨row, listing.label, number + (i + 1)⟩ : ListedRow)) =
          fun i row => ⟨row, listing.label, number + 1 + i⟩ := by
        funext i row
        rw [Nat.add_assoc, Nat.add_comm 1 i]
      rw [decodeFrom, ih (number + 1), List.mapIdx_cons, List.mapM_cons, hi]
      rfl
  have hn : (fun i row => (⟨row, listing.label, 1 + i⟩ : ListedRow)) = fun i row =>
      ⟨row, listing.label, i + 1⟩ := by
    funext i row
    rw [Nat.add_comm]
  rw [ofRows_eq, h, numbered, hn]

/-- Rows behind others are decoded like rows on their own, but for the number in their error. -/
theorem ofRows_append (listing : Listing) (a b : List Row) : listing.ofRows (a ++ b) = do
    let first ← listing.ofRows a
    let second ← (listing.ofRows b).mapError (Error.behind a.length)
    return first ++ second := by
  have hb : ((listing.numbered b).map (ListedRow.behind a.length)).mapM listing.ofRow =
      (listing.ofRows b).mapError (Error.behind a.length) := by
    rw [List.mapM_map, ofRows_eq_mapM, ← mapM_mapError]
    congr 1
    funext row
    exact listing.ofRow_behind a.length row
  rw [ofRows_eq_mapM, numbered_append, List.mapM_append, hb, ofRows_eq_mapM listing a]

theorem exists_ofRows_iff {listing : Listing} {rows : List Row} :
    (∃ records, listing.ofRows rows = .ok records) ↔
    ∀ row ∈ listing.numbered rows, ∃ record, listing.ofRow row = .ok record := by
  rw [ofRows_eq_mapM, exists_mapM_iff]

/-- The error of a listing is that of a row behind rows with records. -/
theorem ofRows_eq_error_iff {listing : Listing} {rows : List Row} {e : Error} :
    listing.ofRows rows = .error e ↔
    ∃ before row after, rows = before ++ row :: after ∧
      (∃ records, listing.ofRows before = .ok records) ∧
      listing.ofRow ⟨row, listing.label, before.length + 1⟩ = .error e := by
  rw [ofRows_eq_mapM, mapM_eq_error_iff]
  constructor
  · rintro ⟨first, item, last, hs, hf, he⟩
    obtain ⟨before, behind, rfl, rfl, hb⟩ := List.mapIdx_eq_append_iff.mp hs
    obtain ⟨row, after, rfl, rfl, -⟩ := List.mapIdx_eq_cons_iff.mp hb
    rw [Nat.zero_add] at he
    exact ⟨before, row, after, rfl, exists_ofRows_iff.mpr hf, he⟩
  · rintro ⟨before, row, after, rfl, hb, he⟩
    have hs : listing.numbered (before ++ row :: after) = listing.numbered before ++
        ⟨row, listing.label, before.length + 1⟩ :: after.mapIdx fun i row =>
          ⟨row, listing.label, i + 1 + before.length + 1⟩ := by
      rw [numbered, List.mapIdx_append, List.mapIdx_cons, Nat.zero_add]
      rfl
    exact ⟨_, _, _, hs, exists_ofRows_iff.mp hb, he⟩

/-- Rows in two parts are decoded to the records of both parts; without them the error is that of
the first part, or that of the second part with its number counted from the start of the first one.
There are records if and only if there is one for each row, and an error if and only if it is that
of the first row without a record, and then it shows the number of that row, unless it is an unknown
action of a foreign key. -/
theorem ofRows_by_rows (listing : Listing) (a b : List Row) :
    (∀ first second, listing.ofRows a = .ok first → listing.ofRows b = .ok second →
      listing.ofRows (a ++ b) = .ok (first ++ second)) ∧
    (∀ e, listing.ofRows a = .error e → listing.ofRows (a ++ b) = .error e) ∧
    (∀ first e, listing.ofRows a = .ok first → listing.ofRows b = .error e →
      listing.ofRows (a ++ b) = .error (e.behind a.length)) ∧
    (∀ records, listing.ofRows a = .ok records ↔
      List.Forall₂ (fun row record => listing.ofRow row = .ok record)
        (listing.numbered a) records) ∧
    ∀ e, listing.ofRows a = .error e ↔
      ∃ before row after, a = before ++ row :: after ∧
        (∃ records, listing.ofRows before = .ok records) ∧
        listing.ofRow ⟨row, listing.label, before.length + 1⟩ = .error e ∧
        (e.row? = some (before.length + 1) ∨ listing = .foreignKeys ∧ e.IsUnknownAction) := by
  refine ⟨fun first second ha hb => ?_, fun e ha => ?_, fun first e ha hb => ?_,
    fun records => ?_, fun e => ?_⟩
  · rw [ofRows_append, ha, hb]
    rfl
  · rw [ofRows_append, ha]
    rfl
  · rw [ofRows_append, ha, hb]
    rfl
  · rw [ofRows_eq_mapM, mapM_eq_ok_iff]
  · rw [ofRows_eq_error_iff]
    constructor
    · rintro ⟨before, row, after, hs, hb, he⟩
      exact ⟨before, row, after, hs, hb, he, listing.failsBy_ofRow _ e he⟩
    · rintro ⟨before, row, after, hs, hb, he, -⟩
      exact ⟨before, row, after, hs, hb, he⟩

def sampleKeyRow (position : String) : Row := ⟨primaryKeys.fields, ["T", "PK", "C", position]⟩

/-- Behind one more row, the second row of a part is the third one. -/
theorem ofRows_by_rows_sample :
    PrimaryKeyPart.ofRows ([sampleKeyRow "1"] ++ [sampleKeyRow "2", sampleKeyRow "second",
      sampleKeyRow ""]) =
      .error (.invalidValue "primary keys" "KeyOrder" "second" 3) := by
  have ha : PrimaryKeyPart.ofRows [sampleKeyRow "1"] = .ok [⟨"T", "PK", "C", 1⟩] := by decide
  have hb : PrimaryKeyPart.ofRows [sampleKeyRow "2", sampleKeyRow "second", sampleKeyRow ""] =
      .error (.invalidValue "primary keys" "KeyOrder" "second" 2) := by decide
  exact (ofRows_by_rows primaryKeys _ _).2.2.1 _ _ ha hb

end Listing
end CatalogDdl
