import CatalogDdl.Proofs.Catalog.Field
import CatalogDdl.Proofs.ResultSet.Printed

/-!
# Entries of a record

A record is printed as one value for each of its entries, in the order of the fields of its listing.
The decoder gets each entry back from the value under its field.
-/
namespace CatalogDdl
open Text ResultSet

theorem ReferentialAction.ofName?_name (a : ReferentialAction) : ofName? a.name = some a := by
  cases a <;> decide

/-- What a record holds under one field. -/
inductive Entry where
  | text (value : String)
  | optional (value? : Option String)
  | number (n : Int)
  | truth (b : Bool)
  | action (a : ReferentialAction)

namespace Entry

/-- The values by which an entry is printed. An absent one is printed in either of two ways. -/
inductive Shows : Entry → String → Prop where
  | text (value : String) : Shows (text value) value
  | present (value : String) : Shows (optional (some value)) value
  | empty : Shows (optional none) ""
  | null : Shows (optional none) "NULL"
  | number (n : Int) : Shows (number n) (toString n)
  | yes : Shows (truth true) "1"
  | no : Shows (truth false) "0"
  | action (a : ReferentialAction) : Shows (action a) a.name

/-- Entries that their printed values do not misstate. -/
def Printable : Entry → Prop
  | text value => Plain '|' value
  | optional (some value) => Plain '|' value ∧ isAbsent value = false
  | number n => FitsInt32 n
  | _ => True

instance : (entry : Entry) → Decidable entry.Printable
  | text value => inferInstanceAs (Decidable (Plain '|' value))
  | optional (some value) => inferInstanceAs (Decidable (Plain '|' value ∧ isAbsent value = false))
  | optional none => inferInstanceAs (Decidable True)
  | number n => inferInstanceAs (Decidable (FitsInt32 n))
  | truth _ => inferInstanceAs (Decidable True)
  | action _ => inferInstanceAs (Decidable True)

/-- A number is printed without blanks and without the delimiter. -/
theorem plain_toString (n : Int) : Plain '|' (toString n) := by
  have hb : ∀ c ∈ (toString n).toList, isBlank c = false ∧ c ≠ '|' := by
    intro c hc
    rcases isDigit_or_sign hc with hd | rfl
    · refine ⟨isBlank_of_isDigit hd, ?_⟩
      rintro rfl
      contradiction
    · decide
  refine ⟨Trimmed.of_forall fun c hc => (hb c hc).1, fun hc => (hb _ hc).2 rfl, fun hc => ?_⟩
  exact absurd (hb _ hc).1 (by decide)

/-- Printed values do not break a line. -/
theorem plain_of_shows {entry : Entry} {value : String} (hp : entry.Printable)
    (hs : entry.Shows value) :
    Plain '|' value := by
  cases hs with
  | text => exact hp
  | present => exact hp.1
  | number n => exact plain_toString n
  | action a => cases a <;> decide
  | empty => decide
  | null => decide
  | yes => decide
  | no => decide

/-- The empty text stands for no value at all. -/
def ofText (value : String) : Entry := optional (if value.isEmpty then none else some value)

end Entry

theorem Row.get?_cons_self (field value : String) (fields values : List String) :
    Row.get? ⟨field :: fields, value :: values⟩ field = some value := by
  simp [Row.get?, List.idxOf?_cons]

theorem Row.get?_cons_of_ne {field first : String} (h : first ≠ field) (value : String)
    (fields values : List String) :
    Row.get? ⟨first :: fields, value :: values⟩ field = Row.get? ⟨fields, values⟩ field := by
  have hb : (first == field) = false := by simp [h]
  simp only [Row.get?, List.idxOf?_cons, hb]
  cases List.idxOf? field fields <;> rfl

namespace ListedRow

/-- The value under the field shows the entry and does not misstate it. -/
def Shows (r : ListedRow) (field : String) (entry : Entry) : Prop :=
  entry.Printable ∧ ∃ value, r.row.get? field = some value ∧ entry.Shows value

/-- Each field shows the entry at its place. -/
def ShowsAll (r : ListedRow) : List String → List Entry → Prop
  | field :: fields, entry :: entries => r.Shows field entry ∧ r.ShowsAll fields entries
  | _, _ => True

variable {r : ListedRow} {field : String}

theorem showsAll_of_forall {fields : List String} {entries : List Entry}
    (h : ∀ p ∈ fields.zip entries, r.Shows p.1 p.2) : r.ShowsAll fields entries := by
  induction fields generalizing entries with
  | nil => trivial
  | cons field fields ih =>
    cases entries with
    | nil => trivial
    | cons entry entries =>
      rw [List.zip_cons_cons, List.forall_mem_cons] at h
      exact ⟨h.1, ih h.2⟩

/-- Distinct fields are found each with its own value. -/
theorem exists_get?_of_forall₂ {fields values : List String} (hn : fields.Nodup)
    {entries : List Entry} (h : List.Forall₂ Entry.Shows entries values) {entry : Entry}
    (hm : (field, entry) ∈ fields.zip entries) :
    ∃ value, Row.get? ⟨fields, values⟩ field = some value ∧ entry.Shows value := by
  induction h generalizing fields with
  | nil => simp at hm
  | @cons first value entries values hs _ ih =>
    cases fields with
    | nil => simp at hm
    | cons name fields =>
      rw [List.nodup_cons] at hn
      rw [List.zip_cons_cons, List.mem_cons] at hm
      rcases hm with ⟨rfl, rfl⟩ | hm
      · exact ⟨value, Row.get?_cons_self _ _ _ _, hs⟩
      · have hf : name ≠ field := by
          rintro rfl
          exact hn.1 (List.of_mem_zip hm).1
        obtain ⟨found, hg, he⟩ := ih hn.2 hm
        exact ⟨found, (Row.get?_cons_of_ne hf _ _ _).trans hg, he⟩

theorem showsAll_of_forall₂ {fields values : List String} (hn : fields.Nodup) {entries : List Entry}
    (hp : ∀ entry ∈ entries, entry.Printable) (h : List.Forall₂ Entry.Shows entries values)
    (listing : String) (number : Nat) :
    ShowsAll ⟨⟨fields, values⟩, listing, number⟩ fields entries :=
  showsAll_of_forall fun _ hm => ⟨hp _ (List.of_mem_zip hm).2, exists_get?_of_forall₂ hn h hm⟩

theorem value_of_shows {value : String} (h : r.Shows field (.text value)) :
    r.value field = .ok value := by
  obtain ⟨-, _, hg, ⟨⟩⟩ := h
  exact value_eq_ok_iff.mpr hg

theorem value?_of_shows {value? : Option String} (h : r.Shows field (.optional value?)) :
    r.value? field = value? := by
  obtain ⟨hp, _, hg, hs⟩ := h
  rw [ListedRow.value?, hg]
  cases hs with
  | present value => simp [hp.2]
  | empty => rfl
  | null => rfl

theorem text_of_shows {value : String} (h : r.Shows field (.ofText value)) :
    (r.value? field).getD "" = value := by
  rw [value?_of_shows h]
  by_cases hv : value.isEmpty
  · simp_all
  · simp [hv]

theorem reading_of_get? {α : Type} {read : List Char → Option α} {value : String} {x : α}
    (hg : r.row.get? field = some value) (hx : read value.toList = some x) :
    r.reading read field = .ok x :=
  reading_eq_ok_iff.mpr ⟨value, hg, hx⟩

theorem integer_of_shows {n : Int} (h : r.Shows field (.number n)) : r.integer field = .ok n := by
  obtain ⟨hp, _, hg, ⟨⟩⟩ := h
  exact reading_of_get? hg (int32?_toString hp)

theorem truth_of_shows {b : Bool} (h : r.Shows field (.truth b)) : r.truth field = .ok b := by
  obtain ⟨-, _, hg, hs⟩ := h
  cases hs with
  | yes => exact reading_of_get? hg (by decide)
  | no => exact reading_of_get? hg (by decide)

theorem action_of_shows {a : ReferentialAction} (h : r.Shows field (.action a))
    (constraint : String) :
    r.action constraint field = .ok a := by
  obtain ⟨-, _, hg, ⟨⟩⟩ := h
  rw [ListedRow.action, value_eq_ok_iff.mpr hg]
  simp only [bind, Except.bind, ReferentialAction.ofName?_name]

end ListedRow
end CatalogDdl
