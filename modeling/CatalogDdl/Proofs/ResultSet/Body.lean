import CatalogDdl.Proofs.ResultSet.RowCount
import CatalogDdl.Proofs.Text.Line

/-!
# Bodies

A text that is printed between blanks and followed by row counts is read back, but for its line
endings: each of them is read as a line feed.
-/
namespace CatalogDdl.ResultSet
open Text

/-- What a piece between line feeds leaves: nothing if it is a row count, or else its line with a
line feed. -/
def keptPiece (piece : List Char) : List Char :=
  if isRowCount piece then [] else dropReturn piece ++ ['\n']

/-- What a text leaves without its row counts, each line ended by a line feed. -/
def kept (s : List Char) : List Char := (s.splitOn '\n').flatMap keptPiece

theorem kept_line {l : List Char} (hl : '\n' ∉ l) : kept l = keptPiece l := by
  simp [kept, List.splitOn_eq_singleton hl]

theorem kept_append (s t : List Char) : kept (s ++ '\n' :: t) = kept s ++ kept t := by
  simp only [kept, List.splitOn_append_cons_self, List.flatMap_append]

@[simp] theorem isRowCount_dropReturn (piece : List Char) :
    isRowCount (dropReturn piece) = isRowCount piece := by
  rw [← isRowCount_trim, trim_dropReturn, isRowCount_trim]

theorem trim_unlines (ls : List (List Char)) :
    trim (unlines ls) = trim (ls.flatMap (· ++ ['\n'])) := by
  by_cases h : ls = []
  · simp [h, unlines]
  · rw [flatMap_closed h, trim_concat (by decide)]

/-- A carriage return at the end of the last piece is a blank at the end of the text. -/
theorem trim_closeLines (front : List Char) (pieces : List (List Char)) :
    trim (front ++ ((closeLines pieces).filter (!isRowCount ·)).flatMap (· ++ ['\n'])) =
      trim (front ++ pieces.flatMap keptPiece) := by
  induction pieces generalizing front with
  | nil => rfl
  | cons piece rest ih =>
    cases rest with
    | nil =>
      by_cases he : piece = []
      · subst he
        simpa [closeLines, keptPiece] using (trim_concat (s := front) (c := '\n') (by decide)).symm
      · cases hr : isRowCount piece with
        | true => simp [closeLines, keptPiece, he, hr]
        | false =>
          have hd := trim_append_dropReturn front piece
          rw [← trim_concat (c := '\n') (by decide),
            ← trim_concat (s := front ++ piece) (c := '\n') (by decide)] at hd
          simpa [closeLines, keptPiece, he, hr] using hd.symm
    | cons next rest =>
      rw [closeLines_cons_cons, List.filter_cons, List.flatMap_cons, keptPiece,
        isRowCount_dropReturn]
      cases isRowCount piece with
      | true => simpa using ih front
      | false => simpa using ih (front ++ (dropReturn piece ++ ['\n']))

theorem body_eq (text : String) : body text = String.ofList (trim (kept text.toList)) := by
  rw [body, lines, trim_unlines, ← List.nil_append (List.flatMap _ _), trim_closeLines]
  rfl

theorem isRowCount_cons {c : Char} (hc : isBlank c = true) (s : List Char) :
    isRowCount (c :: s) = isRowCount s := by
  rw [← isRowCount_trim, trim_cons hc, isRowCount_trim]

theorem isRowCount_concat {c : Char} (hc : isBlank c = true) (s : List Char) :
    isRowCount (s ++ [c]) = isRowCount s := by
  rw [← isRowCount_trim, trim_concat hc, isRowCount_trim]

/-- A blank at the start of a piece does not count. -/
theorem trim_keptPiece_cons {c : Char} (hc : isBlank c = true) (piece tail : List Char) :
    trim (keptPiece (c :: piece) ++ tail) = trim (keptPiece piece ++ tail) := by
  rw [keptPiece, keptPiece, isRowCount_cons hc]
  cases isRowCount piece with
  | true => rfl
  | false =>
    by_cases he : piece = []
    · subst he
      have hd : dropReturn [c] = [] ∨ dropReturn [c] = [c] := by
        rw [dropReturn]
        split <;> simp
      rcases hd with hd | hd <;> simp [hd, trim_cons hc]
    · simp [dropReturn_cons he, trim_cons hc]

/-- A blank before a text joins its first line. -/
theorem trim_kept_cons {c : Char} (hc : isBlank c = true) (s : List Char) :
    trim (kept (c :: s)) = trim (kept s) := by
  by_cases hn : c = '\n'
  · subst hn
    exact trim_cons hc
  · cases s using line_induction with
    | last _ hb =>
      have h := trim_keptPiece_cons hc s []
      simpa [kept_line hb, kept_line (l := c :: s) (by simp [hb, eq_comm, hn])] using h
    | more l rest hb =>
      rw [← List.cons_append, kept_append, kept_append, kept_line hb,
        kept_line (by simp [hb, eq_comm, hn])]
      exact trim_keptPiece_cons hc l _

/-- A blank after a text joins its last line. -/
theorem trim_kept_concat {c : Char} (hc : isBlank c = true) (front s : List Char) :
    trim (front ++ kept (s ++ [c])) = trim (front ++ kept s) := by
  induction s using line_induction generalizing front with
  | last l hl =>
    by_cases hn : c = '\n'
    · subst hn
      rw [kept_append, ← List.append_assoc]
      exact trim_concat hc
    · rw [kept_line hl, kept_line (by simp [hl, eq_comm, hn]), keptPiece, keptPiece,
        isRowCount_concat hc]
      cases isRowCount l with
      | true => rfl
      | false =>
        simp only [Bool.false_eq_true, if_false, ← List.append_assoc]
        rw [trim_concat (by decide), trim_concat (by decide), trim_append_dropReturn,
          trim_append_dropReturn, ← List.append_assoc, trim_concat hc]
  | more l rest hl ih =>
    rw [List.append_assoc, List.cons_append, kept_append, kept_append, ← List.append_assoc,
      ← List.append_assoc]
    exact ih _

theorem trim_kept_blanks_append {blanks : List Char} (hb : ∀ c ∈ blanks, isBlank c = true)
    (s : List Char) :
    trim (kept (blanks ++ s)) = trim (kept s) := by
  induction blanks with
  | nil => rfl
  | cons c blanks ih =>
    rw [List.forall_mem_cons] at hb
    rw [List.cons_append, trim_kept_cons hb.1, ih hb.2]

theorem trim_kept_append_blanks {blanks : List Char} (hb : ∀ c ∈ blanks, isBlank c = true)
    (s : List Char) :
    trim (kept (s ++ blanks)) = trim (kept s) := by
  induction blanks generalizing s with
  | nil => rw [List.append_nil]
  | cons c blanks ih =>
    rw [List.forall_mem_cons] at hb
    rw [List.append_cons, ih hb.2]
    exact trim_kept_concat hb.1 [] s

/-- A row count on a line of its own: the blanks before it break the line. -/
structure Trailer where
  blanks : List Char
  count : Nat
  blank : ∀ c ∈ blanks, isBlank c = true
  breaks : '\n' ∈ blanks

def Trailer.text (trailer : Trailer) : List Char := trailer.blanks ++ countLine trailer.count

/-- What is printed around a body: blanks, and row counts after it. -/
structure Surround where
  before : List Char
  trailers : List Trailer
  after : List Char
  blankBefore : ∀ c ∈ before, isBlank c = true
  blankAfter : ∀ c ∈ after, isBlank c = true

namespace Surround

def tail (trailers : List Trailer) (after : List Char) : List Char :=
  trailers.flatMap Trailer.text ++ after

def print (around : Surround) (body : List Char) : String :=
  String.ofList (around.before ++ body ++ tail around.trailers around.after)

end Surround

/-- Row counts after a text make no difference to it. -/
theorem trim_kept_tail (trailers : List Trailer) {after : List Char}
    (ha : ∀ c ∈ after, isBlank c = true) (s : List Char) :
    trim (kept (s ++ Surround.tail trailers after)) = trim (kept s) := by
  induction trailers generalizing s with
  | nil => exact trim_kept_append_blanks ha s
  | cons trailer rest ih =>
    obtain ⟨first, second, hs⟩ := List.append_of_mem trailer.breaks
    have hb := trailer.blank
    simp only [hs, List.forall_mem_append, List.forall_mem_cons] at hb
    -- The line of the count is left out, and by induction so is all that follows it.
    have hn : trim (kept (second ++ (countLine trailer.count ++ Surround.tail rest after))) =
        [] := by
      rw [trim_kept_blanks_append hb.2.2, ih, kept_line (unbroken_countLine _), keptPiece,
        isRowCount_countLine]
      rfl
    have ht : s ++ Surround.tail (trailer :: rest) after = (s ++ first) ++
        '\n' :: (second ++ (countLine trailer.count ++ Surround.tail rest after)) := by
      simp [Surround.tail, Trailer.text, hs]
    rw [ht, kept_append, trim_append_blanks (trim_eq_nil_iff.mp hn), trim_kept_append_blanks hb.1]

theorem trimmed_plainBreaks {b : List Char} (hb : Trimmed b) : Trimmed (plainBreaks b) := by
  constructor
  · cases b with
    | nil => simp
    | cons c rest =>
      have hc := hb.first c rfl
      have hp : ¬ ['\r', '\n'] <+: c :: rest := by
        rintro ⟨tail, ht⟩
        cases ht
        exact absurd hc (by decide)
      simpa [plainBreaks_cons hp] using hc
  · rw [getLast?_plainBreaks]
    exact hb.last

/-- A text between blanks none of whose lines is a row count is read back from what is printed
around it. -/
theorem body_print (around : Surround) {b : List Char} (hb : Trimmed b)
    (hn : ∀ piece ∈ b.splitOn '\n', isRowCount piece = false) :
    body (around.print b) = String.ofList (plainBreaks b) := by
  have hr : b.getLast? ≠ some '\r' := fun h => absurd (hb.last _ h) (by decide)
  have hk : kept b = plainBreaks b ++ ['\n'] := by
    rw [← flatMap_dropReturn hr, kept]
    refine List.flatMap_congr fun piece hp => ?_
    rw [keptPiece, hn piece hp]
    rfl
  rw [body_eq, Surround.print, String.toList_ofList, List.append_assoc,
    trim_kept_blanks_append around.blankBefore, trim_kept_tail around.trailers around.blankAfter,
    hk, trim_concat (by decide),
    trim_eq_self (trimmed_plainBreaks hb)]

end CatalogDdl.ResultSet
