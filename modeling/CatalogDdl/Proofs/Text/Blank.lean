import CatalogDdl.Text.Blank
import CatalogDdl.Text.Lines
import Mathlib.Data.List.DropRight

/-!
# Trimmed texts

A text is trimmed if no blank stands at either end. `trim` returns a trimmed text and changes no
other, and it does not matter to it whether a blank at an end has been taken off before. It takes
off nothing but blanks.
-/
namespace CatalogDdl.Text

/-- No blank stands at either end of the text. -/
structure Trimmed (s : List Char) : Prop where
  first : ∀ c ∈ s.head?, isBlank c = false
  last : ∀ c ∈ s.getLast?, isBlank c = false

theorem trimmed_iff {s : List Char} :
    Trimmed s ↔ (s.head?.any isBlank || s.getLast?.any isBlank) = false := by
  rw [Bool.or_eq_false_iff, Option.any_eq_false, Option.any_eq_false]
  exact ⟨fun h => ⟨h.first, h.last⟩, fun h => ⟨h.1, h.2⟩⟩

instance (s : List Char) : Decidable (Trimmed s) := decidable_of_iff _ trimmed_iff.symm

theorem Trimmed.nil : Trimmed [] := ⟨by simp, by simp⟩

theorem Trimmed.of_forall {s : List Char} (h : ∀ c ∈ s, isBlank c = false) : Trimmed s :=
  ⟨fun c hc => h c (List.mem_of_mem_head? hc), fun c hc => h c (List.mem_of_mem_getLast? hc)⟩

/-- A character that is no blank may join trimmed texts. -/
theorem Trimmed.append_cons {s t : List Char} {c : Char} (hs : Trimmed s) (ht : Trimmed t)
    (hc : isBlank c = false) : Trimmed (s ++ c :: t) := by
  constructor
  · intro x hx
    cases s with
    | nil => simp_all
    | cons y s => exact hs.first x (by simpa using hx)
  · intro x hx
    cases ht' : t.getLast? with
    | none => simp_all
    | some y => exact ht.last x (by simp_all [List.getLast?_cons])

/-- A text is trimmed if its first character and its last one are no blanks. -/
theorem Trimmed.cons_concat {c d : Char} (hc : isBlank c = false) (hd : isBlank d = false)
    (s : List Char) :
    Trimmed (c :: (s ++ [d])) := by
  constructor
  · intro x hx
    cases hx
    exact hc
  · intro x hx
    rw [← List.cons_append, List.getLast?_concat] at hx
    cases hx
    exact hd

/-- Between two trimmed texts that are not empty there may be anything. -/
theorem Trimmed.append_append {s t : List Char} (hs : Trimmed s) (ht : Trimmed t) (hsn : s ≠ [])
    (htn : t ≠ []) (between : List Char) : Trimmed (s ++ (between ++ t)) := by
  constructor
  · intro c hc
    rw [List.head?_append_of_ne_nil _ hsn] at hc
    exact hs.first c hc
  · intro c hc
    rw [← List.append_assoc, List.getLast?_append_of_ne_nil _ htn] at hc
    exact ht.last c hc

/-- The text without the blanks it ends with, by the library's name for it. -/
theorem trimEnd_eq (s : List Char) : trimEnd s = s.rdropWhile isBlank := rfl

theorem trimStart_eq_nil_iff {s : List Char} : trimStart s = [] ↔ ∀ c ∈ s, isBlank c = true := by
  simp [trimStart]

/-- Only a text of blanks has nothing left of it. -/
theorem trim_eq_nil_iff {s : List Char} : trim s = [] ↔ ∀ c ∈ s, isBlank c = true := by
  rw [trim, trimEnd_eq, List.rdropWhile_eq_nil_iff]
  constructor
  · intro h
    have hs : trimStart (trimStart s) = [] := trimStart_eq_nil_iff.mpr h
    rw [trimStart, trimStart, List.dropWhile_idempotent] at hs
    exact trimStart_eq_nil_iff.mp hs
  · intro h c hc
    exact h c (List.dropWhile_subset _ hc)

theorem trim_eq_self {s : List Char} (h : Trimmed s) : trim s = s := by
  have hs : trimStart s = s := by
    cases s with
    | nil => rfl
    | cons c s => simp [trimStart, h.first c rfl]
  rw [trim, hs, trimEnd_eq, List.rdropWhile_eq_self_iff]
  intro hne
  simp [h.last _ (List.getLast?_eq_some_getLast hne)]

theorem not_of_mem_head?_dropWhile {p : Char → Bool} {s : List Char} {c : Char}
    (h : c ∈ (s.dropWhile p).head?) : p c = false := by
  have hn := List.head?_dropWhile_not p s
  rw [Option.mem_def.mp h] at hn
  simpa using hn

/-- Trimming leaves no blank at either end. -/
theorem trimmed_trim (s : List Char) : Trimmed (trim s) := by
  have hp : trim s <+: trimStart s := by
    rw [trim, trimEnd_eq]
    exact List.rdropWhile_prefix _ _
  constructor
  · intro c hc
    obtain ⟨rest, hr⟩ := hp
    cases ht : trim s with
    | nil => simp [ht] at hc
    | cons x xs =>
      have hx : (trimStart s).head? = some c := by
        rw [← hr, ht]
        simpa [ht] using hc
      exact not_of_mem_head?_dropWhile hx
  · intro c hc
    have hne : trim s ≠ [] := by
      intro hn
      simp [hn] at hc
    have hl : ¬ isBlank ((trim s).getLast hne) := List.rdropWhile_last_not isBlank (trimStart s) hne
    rw [Option.mem_def, List.getLast?_eq_some_getLast hne] at hc
    cases hc
    simpa using hl

@[simp] theorem trim_trim (s : List Char) : trim (trim s) = trim s := trim_eq_self (trimmed_trim s)

/-- A blank after a text is taken off. -/
theorem trim_concat {c : Char} {s : List Char} (h : isBlank c = true) :
    trim (s ++ [c]) = trim s := by
  by_cases hs : trimStart s = []
  · have hb := trimStart_eq_nil_iff.mp hs
    rw [trim_eq_nil_iff.mpr hb, trim_eq_nil_iff]
    simpa [or_imp, forall_and] using ⟨hb, h⟩
  · have hc : trimStart (s ++ [c]) = trimStart s ++ [c] := by
      simp_all [trimStart, List.dropWhile_append]
    rw [trim, hc, trimEnd_eq, List.rdropWhile_concat_pos _ _ _ h]
    rfl

theorem trim_append_blanks {s t : List Char} (h : ∀ c ∈ t, isBlank c = true) :
    trim (s ++ t) = trim s := by
  induction t generalizing s with
  | nil => rw [List.append_nil]
  | cons c t ih =>
    rw [List.forall_mem_cons] at h
    rw [List.append_cons, ih h.2, trim_concat h.1]

/-- A blank before a text is taken off. -/
theorem trim_cons {c : Char} {s : List Char} (h : isBlank c = true) : trim (c :: s) = trim s := by
  rw [trim, trim, trimStart, trimStart, List.dropWhile_cons_of_pos h]

theorem trim_blanks_append {blanks : List Char} (h : ∀ c ∈ blanks, isBlank c = true)
    (s : List Char) :
    trim (blanks ++ s) = trim s := by
  induction blanks with
  | nil => rfl
  | cons c blanks ih =>
    rw [List.forall_mem_cons] at h
    rw [List.cons_append, trim_cons h.1, ih h.2]

/-- A text is what `trim` leaves of it, between blanks. -/
theorem exists_blanks_trim (s : List Char) : ∃ before after, (∀ c ∈ before, isBlank c = true) ∧
    (∀ c ∈ after, isBlank c = true) ∧ s = before ++ (trim s ++ after) := by
  refine ⟨s.takeWhile isBlank, (trimStart s).rtakeWhile isBlank, fun c => List.mem_takeWhile_imp,
    fun c => List.mem_rtakeWhile_imp, ?_⟩
  rw [trim, trimEnd_eq, List.rdropWhile_append_rtakeWhile, trimStart,
    List.takeWhile_append_dropWhile]

/-- The carriage return of a line ending is a blank after the line. -/
theorem trim_append_dropReturn (front s : List Char) :
    trim (front ++ dropReturn s) = trim (front ++ s) := by
  rw [dropReturn]
  split
  · next h =>
    obtain ⟨rest, rfl⟩ := List.getLast?_eq_some_iff.mp h
    rw [List.dropLast_concat, ← List.append_assoc, trim_concat (by decide)]
  · rfl

@[simp] theorem trim_dropReturn (s : List Char) :
    trim (dropReturn s) = trim s := trim_append_dropReturn [] s

theorem mem_dropWhile_isBlank {c : Char} {s : List Char} (hc : c ∈ s) (hb : isBlank c = false) :
    c ∈ s.dropWhile isBlank := by
  induction s with
  | nil => simp at hc
  | cons x s ih =>
    rw [List.dropWhile_cons]
    split
    · next hx =>
      refine ih ((List.mem_cons.mp hc).resolve_left ?_)
      rintro rfl
      simp [hb] at hx
    · exact hc

/-- Only blanks are taken off. -/
theorem mem_trim {c : Char} {s : List Char} (hc : c ∈ s) (hb : isBlank c = false) : c ∈ trim s := by
  have hs : c ∈ (trimStart s).reverse := List.mem_reverse.mpr (mem_dropWhile_isBlank hc hb)
  exact List.mem_reverse.mpr (mem_dropWhile_isBlank hs hb)

theorem trim_subset (s : List Char) : trim s ⊆ s := by
  intro c hc
  rw [trim, trimEnd_eq] at hc
  exact List.dropWhile_subset _ ((List.rdropWhile_prefix _ _).subset hc)

end CatalogDdl.Text
