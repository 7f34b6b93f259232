import CatalogDdl.Proofs.Script.Line

/-!
# Batches

A script is split into batches at the lines `GO`. No other line of it is `GO`, unless a routine has
such a line, so a batch ends where a separator is among the pieces and nowhere else.
-/
namespace CatalogDdl
open Text

def goLine : List Char := ['G', 'O']

theorem NotG.ne_goLine {line : List Char} (h : NotG line) : line ≠ goLine := by
  rintro rfl
  exact h rfl

namespace Piece

/-- The piece is a separator, or it consists of whole lines none of which is `GO`. -/
def InBatch : Piece → Prop
  | separator => True
  | remark r => Lined (· ≠ goLine) r
  | statement s => Lined (· ≠ goLine) s.sql

/-- The batches that pieces make, as lists of lines. The lines in front are those of the first batch
so far. -/
def batches (front : List (List Char)) : List Piece → List (List (List Char))
  | [] => [front ++ [[]]]
  | separator :: rest => front :: batches [[]] rest
  | remark r :: rest => batches (front ++ wholeLines r) rest
  | statement s :: rest => batches (front ++ wholeLines s.sql) rest

theorem splitOn_front {text : String} (h : Lined (· ≠ goLine) text) (front : List (List Char))
    (rest : String) :
    front ++ (text ++ rest).toList.splitOn '\n' =
      front ++ wholeLines text ++ rest.toList.splitOn '\n' := by
  rw [String.toList_append, h.splitOn_append, List.append_assoc]

theorem goLine_not_mem_front {text : String} (h : Lined (· ≠ goLine) text)
    {front : List (List Char)} (hf : goLine ∉ front) : goLine ∉ front ++ wholeLines text := by
  rw [List.mem_append, not_or]
  exact ⟨hf, fun hm => h.lines _ hm rfl⟩

theorem splitOn_separator (rest : String) : (text "GO" separator ++ rest).toList.splitOn '\n' =
    goLine :: ([[]] ++ rest.toList.splitOn '\n') := by
  have ht : (text "GO" separator ++ rest).toList =
      goLine ++ '\n' :: ([] ++ '\n' :: rest.toList) := by
    simp [text, goLine]
  rw [ht, splitOn_line (by decide), splitOn_line (by simp), List.singleton_append]

/-- The lines of pieces fall into the batches of the pieces. -/
theorem splitOn_texts {pieces : List Piece} (h : ∀ p ∈ pieces, p.InBatch) {front : List (List Char)}
    (hf : goLine ∉ front) :
    (front ++ (texts "GO" pieces).toList.splitOn '\n').splitOn goLine = batches front pieces := by
  induction pieces generalizing front with
  | nil =>
    have he : goLine ∉ front ++ [[]] := by simpa [goLine] using hf
    simpa [batches] using List.splitOn_eq_singleton he
  | cons piece rest ih =>
    rw [List.forall_mem_cons] at h
    rw [texts_cons]
    cases piece with
    | separator =>
      rw [splitOn_separator, splitOn_of_not_mem hf, ih h.2 (by simp [goLine])]
      rfl
    | remark r =>
      have hr : Lined (· ≠ goLine) r := h.1
      rw [text, splitOn_front hr, ih h.2 (goLine_not_mem_front hr hf)]
      rfl
    | statement s =>
      have hs : Lined (· ≠ goLine) s.sql := h.1
      rw [text, splitOn_front hs, ih h.2 (goLine_not_mem_front hs hf)]
      rfl

theorem lined_texts {pieces : List Piece} (hs : separator ∉ pieces) (h : ∀ p ∈ pieces, p.InBatch) :
    Lined (· ≠ goLine) (texts "GO" pieces) := by
  refine Lined.join (List.forall_mem_map.mpr fun piece hp => ?_)
  cases piece with
  | separator => exact absurd hp hs
  | remark r => exact h _ hp
  | statement s => exact h _ hp

/-- Pieces without a separator join the batch. -/
theorem batches_append {first : List Piece} (hs : separator ∉ first) (h : ∀ p ∈ first, p.InBatch)
    (front : List (List Char)) (rest : List Piece) :
    batches front (first ++ rest) = batches (front ++ wholeLines (texts "GO" first)) rest := by
  induction first generalizing front with
  | nil => simp [wholeLines]
  | cons piece first ih =>
    rw [List.forall_mem_cons] at h
    rw [List.mem_cons, not_or] at hs
    rw [texts_cons]
    cases piece with
    | separator => exact absurd rfl hs.1
    | remark r =>
      have hr : Lined (· ≠ goLine) r := h.1
      rw [text, hr.wholeLines_append, ← List.append_assoc]
      exact ih hs.2 h.2 _
    | statement s =>
      have hr : Lined (· ≠ goLine) s.sql := h.1
      rw [text, hr.wholeLines_append, ← List.append_assoc]
      exact ih hs.2 h.2 _

end Piece

namespace Routine

/-- A batch of remarks and then the definition of the routine. -/
def IsBatch (routine : Routine) (batch : List (List Char)) : Prop :=
  ∃ remarks, (∀ line ∈ remarks, IsRemark line) ∧
    batch = remarks ++ routine.definition.toList.splitOn '\n'

/-- Each routine adds one batch, which begins with the remarks in front of it. -/
theorem exists_batches {routines : List Routine} (h : ∀ routine ∈ routines, Unbroken routine.name)
    {front : List (List Char)} (hf : ∀ line ∈ front, IsRemark line) (rest : List Piece) :
    ∃ bs last, Piece.batches front (routines.flatMap pieces ++ rest) =
      bs ++ Piece.batches last rest ∧
      List.Forall₂ IsBatch routines bs ∧ ∀ line ∈ last, IsRemark line := by
  induction routines generalizing front with
  | nil => exact ⟨[], front, rfl, .nil, hf⟩
  | cons routine routines ih =>
    rw [List.forall_mem_cons] at h
    obtain ⟨bs, last, hb, hi, hl⟩ := ih h.2 (by simp [IsRemark] : ∀ line ∈ [[]], IsRemark line)
    have hs : Piece.batches front ((routine :: routines).flatMap pieces ++ rest) =
        (front ++ wholeLines ("-- " ++ routine.kind.label ++ ": " ++ routine.name ++ "\n")
          ++ wholeLines (routine.definition ++ "\n"))
          :: Piece.batches [[]] (routines.flatMap pieces ++ rest) := rfl
    have hr : routine.IsBatch
        (front ++ wholeLines ("-- " ++ routine.kind.label ++ ": " ++ routine.name ++ "\n")
          ++ wholeLines (routine.definition ++ "\n")) :=
      ⟨_, List.forall_mem_append.mpr ⟨hf, (lined_comment h.1).lines⟩,
        by rw [Lined.wholeLines_closed routine.definition]⟩
    refine ⟨_, last, ?_, .cons hr hi, hl⟩
    rw [hs, hb]
    rfl

/-- The routines of a kind have one batch each, and their heading is in the first. -/
theorem Kind.exists_batches (kind : Kind) {routines : List Routine}
    (h : ∀ routine ∈ routines, Unbroken routine.name) {front : List (List Char)}
    (hf : ∀ line ∈ front, IsRemark line) (rest : List Piece) :
    ∃ bs last, Piece.batches front (kind.pieces routines ++ rest) = bs ++ Piece.batches last rest ∧
      List.Forall₂ IsBatch routines bs ∧ ∀ line ∈ last, IsRemark line := by
  have hh : Lined IsRemark (heading kind.title) := lined_heading (by cases kind <;> decide)
  exact Routine.exists_batches h (List.forall_mem_append.mpr ⟨hf, hh.lines⟩) rest

end Routine

namespace Script

variable {script : Script}

/-- Every piece of a script is in one batch if no line of a routine is `GO`. -/
theorem inBatch_pieces (hset : script.settings.OneLine)
    (hs : ∀ s ∈ script.statements, ∀ text ∈ s.texts, Unbroken text)
    (hb : ∀ routine ∈ script.schema.procedures ++ script.schema.views,
      goLine ∉ routine.definition.toList.splitOn '\n') :
    ∀ p ∈ script.pieces, p.InBatch := by
  intro p hp
  cases p with
  | separator => trivial
  | remark r => exact (remarks_pieces hset hs _ hp : Lined IsRemark r).mono fun line hl =>
    hl.notG.ne_goLine
  | statement s =>
    have hm : s ∈ script.statements := List.mem_filterMap.mpr ⟨_, hp, rfl⟩
    by_cases hr : ∃ routine, s = .createRoutine routine
    · obtain ⟨routine, rfl⟩ := hr
      have hc : routine ∈ Statement.createdRoutines script.statements :=
          List.mem_filterMap.mpr ⟨_, hm, rfl⟩
      rw [createdRoutines_statements] at hc
      exact Lined.closed fun line hl he => hb routine hc (he ▸ hl)
    · exact (Statement.lined (hs s hm) fun routine he => hr ⟨routine, he⟩).mono fun line hl =>
        hl.ne_goLine

def dropBatch (script : Script) : List Piece := script.schema.dropPieces ++ [.remark "\n"]

def tableBatch (script : Script) : List Piece :=
  .remark (heading "CREATE TABLES") :: script.tables.flatMap TableDefinition.pieces

def routineBatches (script : Script) : List Piece :=
  Routine.Kind.procedure.pieces script.schema.procedures
    ++ Routine.Kind.view.pieces script.schema.views

theorem pieces_eq (script : Script) : script.pieces =
    (.remark (script.settings.head script.counts.tables script.schema.procedures.length
      script.schema.views.length)
      :: usePieces script.settings) ++ (script.dropBatch ++ .separator :: (script.tableBatch
        ++ .separator :: script.routineBatches)) := by
  simp only [pieces, dropBatch, tableBatch, routineBatches, List.append_assoc, List.cons_append,
    List.nil_append]

theorem separator_not_mem_dropBatch (script : Script) : .separator ∉ script.dropBatch := by
  simp [dropBatch, Schema.dropPieces]

theorem separator_not_mem_tableBatch (script : Script) : .separator ∉ script.tableBatch := by
  simp [tableBatch, TableDefinition.pieces]

theorem texts_tableBatch (script : Script) : Piece.texts "GO" script.tableBatch =
    heading "CREATE TABLES" ++ String.join (script.tables.map (·.sql)) := by
  simp only [tableBatch, Piece.texts_cons, Piece.texts_flatMap, TableDefinition.texts_pieces,
    Piece.text]

/-- One batch turns to the database, if there is one, and one has the drops. -/
theorem exists_early_batches (script : Script) (h : ∀ p ∈ script.pieces, p.InBatch) :
    ∃ early, Piece.batches [] script.pieces =
      early ++ Piece.batches [[]] (script.tableBatch ++ .separator :: script.routineBatches) ∧
      early.length = (if script.settings.database.isSome then 1 else 0) + 1 := by
  have hs := script.separator_not_mem_dropBatch
  rw [pieces_eq] at h ⊢
  simp only [List.forall_mem_append] at h
  cases hd : script.settings.database with
  | none =>
    simp only [usePieces, hd, List.cons_append, List.nil_append, Piece.batches]
    rw [Piece.batches_append hs h.2.1, Piece.batches]
    exact ⟨[_], List.singleton_append.symm, rfl⟩
  | some database =>
    simp only [usePieces, hd, List.cons_append, List.nil_append, Piece.batches]
    rw [Piece.batches_append hs h.2.1, Piece.batches]
    have hc {α : Type} (first second : α) (rest : List α) :
        first :: second :: rest = [first, second] ++ rest := rfl
    exact ⟨[_, _], hc _ _ _, rfl⟩

/-- Where no routine has a line `GO`, the lines `GO` split a script into the batches of its
separators. The routines have one batch each, of remarks and the definition, and only remarks follow
the last of them. -/
theorem exists_batches (hg : script.settings.separator = "GO") (hset : script.settings.OneLine)
    (hs : ∀ s ∈ script.statements, ∀ text ∈ s.texts, Unbroken text)
    (hb : ∀ routine ∈ script.schema.procedures ++ script.schema.views,
      goLine ∉ routine.definition.toList.splitOn '\n') :
    ∃ early tables procedures views last,
      (script.text.toList.splitOn '\n').splitOn goLine =
        early ++ tables :: (procedures ++ views) ++ [last] ∧
      early.length = (if script.settings.database.isSome then 1 else 0) + 1 ∧
      tables.flatMap (· ++ ['\n']) =
        ("\n" ++ heading "CREATE TABLES" ++ String.join (script.tables.map (·.sql))).toList ∧
      List.Forall₂ Routine.IsBatch script.schema.procedures procedures ∧
      List.Forall₂ Routine.IsBatch script.schema.views views ∧ ∀ line ∈ last, IsRemark line := by
  have hp := inBatch_pieces hset hs hb
  have hn := List.forall_mem_append.mp (unbroken_routine hs)
  obtain ⟨early, he, hlen⟩ := script.exists_early_batches hp
  obtain ⟨procedures, front, hpr, hip, hf⟩ := Routine.Kind.procedure.exists_batches hn.1
    (by simp [IsRemark] : ∀ line ∈ [[]], IsRemark line)
      (Routine.Kind.view.pieces script.schema.views ++ [])
  obtain ⟨views, last, hvi, hiv, hl⟩ := Routine.Kind.view.exists_batches hn.2 hf []
  have htb : ∀ p ∈ script.tableBatch, p.InBatch := by
    rw [pieces_eq] at hp
    simp only [List.forall_mem_append, List.forall_mem_cons] at hp
    exact hp.2.2.2.1
  have hw : Lined (· ≠ goLine) (Piece.texts "GO" script.tableBatch) :=
    Piece.lined_texts script.separator_not_mem_tableBatch htb
  refine ⟨early, [[]] ++ wholeLines (Piece.texts "GO" script.tableBatch), procedures, views,
    last ++ [[]], ?_, hlen, ?_, hip, hiv, ?_⟩
  · have ht := Piece.splitOn_texts hp (by simp : goLine ∉ [])
    have hr : script.routineBatches = Routine.Kind.procedure.pieces script.schema.procedures
        ++ (Routine.Kind.view.pieces script.schema.views ++ []) := by
      rw [routineBatches, List.append_nil]
    rw [List.nil_append, ← hg, ← text_eq_texts, he,
      Piece.batches_append script.separator_not_mem_tableBatch htb, Piece.batches, hr,
      hpr, hvi] at ht
    rw [ht]
    simp [Piece.batches]
  · rw [List.flatMap_append, ← hw.whole, texts_tableBatch]
    simp
  · exact List.forall_mem_append.mpr ⟨hl, by simp [IsRemark]⟩

end Script
end CatalogDdl
