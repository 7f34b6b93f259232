import CatalogDdl.Proofs.ResultSet.Content
import Mathlib.Logic.Relation

/-!
# Layouts of a printed text

A text is laid out anew by carriage returns before its line feeds, by more blank lines or by blanks
around its lines. Its content lines stay the same, whatever the delimiter is, and so does what is
read of it.
-/
namespace CatalogDdl.ResultSet
open Text

/-- A blank before a text is a blank line or joins its first line. -/
theorem contentLines_cons {c : Char} (hc : isBlank c = true) (s : List Char) :
    contentLines (c :: s) = contentLines s := by
  simp only [contentLines_eq, List.splitOn_cons_eq_if_modifyHead]
  split
  · simp
  · obtain ⟨first, rest, hs⟩ := List.exists_cons_of_ne_nil (List.splitOn_ne_nil '\n' s)
    simp [hs, trim_cons hc]

/-- A blank after a text is a blank line or joins its last line. -/
theorem contentLines_concat {c : Char} (hc : isBlank c = true) (s : List Char) :
    contentLines (s ++ [c]) = contentLines s := by
  induction s using line_induction with
  | last l hl =>
    by_cases hn : c = '\n'
    · subst hn
      rw [contentLines_append, contentLines_nil, List.append_nil]
    · rw [contentLines_eq, contentLines_eq, List.splitOn_eq_singleton hl,
        List.splitOn_eq_singleton (by simp [hl, eq_comm, hn])]
      simp [trim_concat hc]
  | more l rest _ ih =>
    rw [List.append_assoc, List.cons_append, contentLines_append, contentLines_append, ih]

theorem contentLines_blanks_append {blanks : List Char} (hb : ∀ c ∈ blanks, isBlank c = true)
    (s : List Char) :
    contentLines (blanks ++ s) = contentLines s := by
  induction blanks with
  | nil => rfl
  | cons c blanks ih =>
    rw [List.forall_mem_cons] at hb
    rw [List.cons_append, contentLines_cons hb.1, ih hb.2]

theorem contentLines_append_blanks {blanks : List Char} (hb : ∀ c ∈ blanks, isBlank c = true)
    (s : List Char) :
    contentLines (s ++ blanks) = contentLines s := by
  induction blanks generalizing s with
  | nil => rw [List.append_nil]
  | cons c blanks ih =>
    rw [List.forall_mem_cons] at hb
    rw [List.append_cons, ih hb.2, contentLines_concat hb.1]

/-- A text of blanks has no content. -/
theorem contentLines_blanks {blanks : List Char} (hb : ∀ c ∈ blanks, isBlank c = true) :
    contentLines blanks = [] := by
  have h := contentLines_blanks_append hb []
  rwa [List.append_nil, contentLines_nil] at h

theorem contentLines_trim (s : List Char) : contentLines (trim s) = contentLines s := by
  obtain ⟨before, after, hb, ha, hs⟩ := exists_blanks_trim s
  conv_rhs => rw [hs, contentLines_blanks_append hb, contentLines_append_blanks ha]

/-- The text with a carriage return before each line feed. -/
def withReturns : List Char → List Char
  | [] => []
  | c :: rest => if c = '\n' then '\r' :: '\n' :: withReturns rest else c :: withReturns rest

@[simp] theorem withReturns_nil : withReturns [] = [] := rfl

theorem withReturns_of_unbroken {l : List Char} (hl : '\n' ∉ l) : withReturns l = l := by
  induction l with
  | nil => rfl
  | cons c l ih =>
    rw [List.mem_cons, not_or] at hl
    rw [withReturns, if_neg (Ne.symm hl.1), ih hl.2]

theorem withReturns_line {l : List Char} (hl : '\n' ∉ l) (rest : List Char) :
    withReturns (l ++ '\n' :: rest) = (l ++ ['\r']) ++ '\n' :: withReturns rest := by
  induction l with
  | nil => rfl
  | cons c l ih =>
    rw [List.mem_cons, not_or] at hl
    rw [List.cons_append, withReturns, if_neg (Ne.symm hl.1), ih hl.2]
    rfl

/-- The carriage return that is put before a line feed is a blank at the end of its line. -/
theorem contentLines_withReturns (s : List Char) :
    contentLines (withReturns s) = contentLines s := by
  induction s using line_induction with
  | last l hl => rw [withReturns_of_unbroken hl]
  | more l rest hl ih =>
    rw [withReturns_line hl, contentLines_append, contentLines_append,
      contentLines_concat (by decide), ih]

/-- The second text is the first one after one change of its layout. -/
inductive Relaid : List Char → List Char → Prop where
  /-- Each line feed gets a carriage return. -/
  | returns (s : List Char) : Relaid s (withReturns s)
  /-- A blank line is put between lines, in front of them or behind them. -/
  | blankLine (before after : List (List Char)) (blank : List Char)
      (hb : isBlankLine blank = true) :
      Relaid (unlines (before ++ after)) (unlines (before ++ blank :: after))
  /-- A line gets blanks around it. -/
  | blanks (before after : List (List Char)) (front line back : List Char)
      (hf : ∀ c ∈ front, isBlank c = true) (hb : ∀ c ∈ back, isBlank c = true) :
      Relaid (unlines (before ++ line :: after))
        (unlines (before ++ (front ++ line ++ back) :: after))

/-- A change of the layout leaves the lines as they are. -/
theorem Relaid.contentLines_eq {s t : List Char} (h : Relaid s t) :
    contentLines t = contentLines s := by
  cases h with
  | returns => exact contentLines_withReturns s
  | blankLine before after blank hb =>
    have hn : contentLines blank = [] := contentLines_blanks (by simpa [isBlankLine] using hb)
    simp [contentLines_unlines, hn]
  | blanks before after front line back hf hb =>
    have hl : contentLines (front ++ line ++ back) = contentLines line := by
      rw [contentLines_append_blanks hb, contentLines_blanks_append hf]
    simp only [contentLines_unlines, List.flatMap_append, List.flatMap_cons, hl]

/-- Changes of layout one after the other leave the content lines. -/
theorem contentLines_of_relaid {s t : List Char} (h : Relation.ReflTransGen Relaid s t) :
    contentLines t = contentLines s := by
  induction h with
  | refl => rfl
  | tail _ h ih => rw [h.contentLines_eq, ih]

/-- Only content lines are read. -/
theorem parse_congr {text other : String} (h : contentLines text.toList = contentLines other.toList)
    (delimiter : Char) : parse delimiter text = parse delimiter other := by
  rw [parse, parse, h]

end CatalogDdl.ResultSet
