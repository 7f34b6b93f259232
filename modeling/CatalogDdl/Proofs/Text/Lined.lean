import CatalogDdl.Proofs.Text.Line
import CatalogDdl.Proofs.Text.Numeral
import CatalogDdl.Text.Quoted

/-!
# Texts of whole lines

A text on one line has no line feed, and quoting does not give it one. A text of whole lines ends
with a line feed unless it is empty, so its lines stay lines of every text that begins with it.
-/
namespace CatalogDdl.Text

def Unbroken (s : String) : Prop := '\n' ∉ s.toList

instance : DecidablePred Unbroken := fun s => inferInstanceAs (Decidable ('\n' ∉ s.toList))

@[simp] theorem unbroken_append_iff {s t : String} :
    Unbroken (s ++ t) ↔ Unbroken s ∧ Unbroken t := by
  simp [Unbroken]

theorem mem_doubled {mark c : Char} {s : List Char} : c ∈ doubled mark s ↔ c ∈ s := by
  induction s with
  | nil => simp
  | cons d s ih =>
    rw [doubled_cons]
    split
    · next h => simp [ih, h]
    · simp [ih]

@[simp] theorem unbroken_identifier_iff {s : String} : Unbroken (identifier s) ↔ Unbroken s := by
  simp [Unbroken, mem_doubled]

@[simp] theorem unbroken_literal_iff {s : String} : Unbroken (literal s) ↔ Unbroken s := by
  simp [Unbroken, mem_doubled]

theorem unbroken_intercalate {separator : String} (hs : Unbroken separator) {texts : List String}
    (ht : ∀ text ∈ texts, Unbroken text) : Unbroken (separator.intercalate texts) := by
  induction texts with
  | nil => simp [Unbroken]
  | cons text rest ih =>
    rw [List.forall_mem_cons] at ht
    cases rest with
    | nil => simpa [String.intercalate_singleton] using ht.1
    | cons next rest => simp [String.intercalate_cons_cons, hs, ht.1, ih ht.2]

theorem unbroken_identifierList {names : List String} (h : ∀ name ∈ names, Unbroken name) :
    Unbroken (identifierList names) := by
  refine unbroken_intercalate (by decide) ?_
  simpa using h

@[simp] theorem unbroken_toString_int (n : Int) : Unbroken (toString n) := fun h => by
  rcases isDigit_or_sign h with h | h <;> exact absurd h (by decide)

@[simp] theorem unbroken_toString_nat (n : Nat) : Unbroken (toString n) := unbroken_toString_int n

theorem splitOn_flatMap {ls : List (List Char)} (h : ∀ l ∈ ls, '\n' ∉ l) (rest : List Char) :
    (ls.flatMap (· ++ ['\n']) ++ rest).splitOn '\n' = ls ++ rest.splitOn '\n' := by
  induction ls with
  | nil => rfl
  | cons l ls ih =>
    rw [List.forall_mem_cons] at h
    simp only [List.flatMap_cons, List.append_assoc, List.nil_append, List.cons_append]
    rw [splitOn_line h.1, ih h.2]

/-- The lines of a text that a line feed ends. -/
def wholeLines (s : String) : List (List Char) := (s.toList.splitOn '\n').dropLast

/-- The text is empty or ends with a line feed, and its lines have the property `P`. -/
structure Lined (P : List Char → Prop) (s : String) : Prop where
  whole : s.toList = (wholeLines s).flatMap (· ++ ['\n'])
  lines : ∀ l ∈ wholeLines s, P l

theorem unbroken_of_mem_wholeLines {s : String} {l : List Char} (h : l ∈ wholeLines s) : '\n' ∉ l :=
  not_mem_of_mem_splitOn (List.mem_of_mem_dropLast h)

theorem wholeLines_eq {s : String} {ls : List (List Char)} (hl : ∀ l ∈ ls, '\n' ∉ l)
    (hs : s.toList = ls.flatMap (· ++ ['\n'])) : wholeLines s = ls := by
  rw [wholeLines, hs, ← List.append_nil (List.flatMap _ _), splitOn_flatMap hl]
  simp

namespace Lined

variable {P Q : List Char → Prop} {s t : String}

theorem of_lines (ls : List (List Char)) (hl : ∀ l ∈ ls, '\n' ∉ l ∧ P l)
    (hs : s.toList = ls.flatMap (· ++ ['\n'])) : Lined P s := by
  have hw : wholeLines s = ls := wholeLines_eq (fun l hm => (hl l hm).1) hs
  exact ⟨hw ▸ hs, hw ▸ fun l hm => (hl l hm).2⟩

theorem empty : Lined P "" := of_lines [] (by simp) rfl

theorem line {l : String} (hl : Unbroken l) (hp : P l.toList) : Lined P (l ++ "\n") :=
  of_lines [l.toList] (by simpa using ⟨hl, hp⟩) (by simp)

/-- The lines of a text stay lines if another text follows. -/
theorem splitOn_append (hs : Lined P s) (rest : List Char) :
    (s.toList ++ rest).splitOn '\n' = wholeLines s ++ rest.splitOn '\n' := by
  rw [hs.whole, splitOn_flatMap fun l => unbroken_of_mem_wholeLines]

theorem wholeLines_append (hs : Lined P s) (t : String) :
    wholeLines (s ++ t) = wholeLines s ++ wholeLines t := by
  have hn : t.toList.splitOn '\n' ≠ [] := List.splitOn_ne_nil _ _
  rw [wholeLines, String.toList_append, hs.splitOn_append, List.dropLast_append_of_ne_nil hn]
  rfl

theorem append (hs : Lined P s) (ht : Lined P t) : Lined P (s ++ t) := by
  have hw := hs.wholeLines_append t
  constructor
  · rw [hw, List.flatMap_append, ← hs.whole, ← ht.whole, String.toList_append]
  · rw [hw]
    exact List.forall_mem_append.mpr ⟨hs.lines, ht.lines⟩

theorem mono (h : Lined P s) (hpq : ∀ l, P l → Q l) :
    Lined Q s := ⟨h.whole, fun l hm => hpq l (h.lines l hm)⟩

theorem join {texts : List String} (h : ∀ text ∈ texts, Lined P text) :
    Lined P (String.join texts) := by
  induction texts with
  | nil => exact empty
  | cons text rest ih =>
    rw [List.forall_mem_cons] at h
    rw [String.join_cons]
    exact h.1.append (ih h.2)

/-- A line feed ends the last line of a text. -/
theorem wholeLines_closed (s : String) : wholeLines (s ++ "\n") = s.toList.splitOn '\n' := by
  have hc : (s ++ "\n").toList.splitOn '\n' = s.toList.splitOn '\n' ++ [[]] := by
    rw [String.toList_append]
    exact List.splitOn_append_cons_self _ _
  rw [wholeLines, hc, List.dropLast_concat]

theorem closed (h : ∀ l ∈ s.toList.splitOn '\n', P l) : Lined P (s ++ "\n") := by
  rw [← wholeLines_closed] at h
  refine ⟨?_, h⟩
  rw [wholeLines_closed, flatMap_closed (List.splitOn_ne_nil _ _), unlines,
    List.intercalate_splitOn]
  simp

end Lined
end CatalogDdl.Text
