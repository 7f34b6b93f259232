import CatalogDdl.Proofs.Text.Quoted
import CatalogDdl.Script.Definition
import Mathlib.Data.List.Basic

/-!
# Reading keys and indexes back

The statement of a foreign key is read back as that key, and the statement of an index as that
index, whatever characters the names have. So no two of them have one statement.
-/
namespace CatalogDdl

namespace Text

/-- What follows the given words at the start of a text. -/
def skip (words : String) (text : List Char) : Option (List Char) := text.dropPrefix? words.toList

theorem skip_append (words : String) (rest : List Char) :
    skip words (words.toList ++ rest) = some rest :=
  List.dropPrefix?_append_of_beq rest BEq.rfl

/-- Reads on behind the given words. A text without them is left as it is, and what they announce is
absent. -/
def readOptional {α : Type} (words : String) (read : List Char → Option (α × List Char))
    (absent : α) (text : List Char) : Option (α × List Char) :=
  match skip words text with
  | none => some (absent, text)
  | some rest => read rest

variable {α : Type} {words : String} {read : List Char → Option (α × List Char)} {absent : α}

theorem readOptional_append (rest : List Char) :
    readOptional words read absent (words.toList ++ rest) = read rest := by
  rw [readOptional, skip_append]

theorem readOptional_of_skip {text : List Char} (h : skip words text = none) :
    readOptional words read absent text = some (absent, text) := by
  rw [readOptional, h]

/-- A name ends before words that do not begin with a bracket. -/
theorem readIdentifier_words (h : words.toList.head?.any (· ≠ ']') = true) (name : String)
    (rest : List Char) :
    readIdentifier ((identifier name).toList ++ (words.toList ++ rest)) =
      some (name.toList, words.toList ++ rest) := by
  obtain ⟨c, hc, hn⟩ := (Option.any_eq_true _ _).mp h
  refine readIdentifier_identifier name ?_
  rw [List.head?_append, hc]
  simpa using hn

/-- A list of names ends before words that begin with a parenthesis. -/
theorem readIdentifierList_words (h : words.toList.head? = some ')') (names : List String)
    (rest : List Char) :
    readIdentifierList ((identifierList names).toList ++ (words.toList ++ rest)) =
      some (names.map (·.toList), words.toList ++ rest) := by
  obtain ⟨tail, ht⟩ := List.head?_eq_some_iff.mp h
  rw [ht]
  exact readIdentifierList_identifierList names (tail ++ rest)

/-- What the first of two readers leaves is read by the second. -/
theorem read_then {β : Type} {first : Option α} {item : α} {next : α → Option β} {result : β}
    (hf : first = some item) (hn : next item = some result) : first.bind next = some result := by
  rw [hf, Option.bind_some, hn]

theorem map_ofList_toList (names : List String) :
    (names.map (·.toList)).map String.ofList = names := by
  simp [Function.comp_def]

end Text
open Text

namespace ReferentialAction

def readSql (text : List Char) : Option (ReferentialAction × List Char) :=
  all.findSome? fun action => (skip action.sql text).map (action, ·)

theorem readSql_sql (action : ReferentialAction) (rest : List Char) :
    readSql (action.sql.toList ++ rest) = some (action, rest) := by
  cases action <;> simp [readSql, all, sql, skip, List.dropPrefix?]

/-- Reads the clause of an action. Without a clause it is `NO ACTION`. -/
def readClause (event : String) : List Char → Option (ReferentialAction × List Char) :=
  readOptional (" ON " ++ event ++ " ") readSql noAction

/-- The clause of an action is read back, also where it is left out. -/
theorem readClause_clause {event : String} (action : ReferentialAction) {rest : List Char}
    (h : skip (" ON " ++ event ++ " ") rest = none) :
    readClause event ((action.clause event).toList ++ rest) = some (action, rest) := by
  by_cases ha : action = noAction
  · rw [ha]
    exact readOptional_of_skip h
  · have hc :
        (action.clause event).toList = (" ON " ++ event ++ " ").toList ++ action.sql.toList := by
      simp [clause, ha]
    rw [hc, List.append_assoc, readClause, readOptional_append, readSql_sql]

end ReferentialAction

namespace ForeignKey

def read? (text : List Char) : Option ForeignKey := do
  let text ← skip "ALTER TABLE " text
  let (table, text) ← readIdentifier text
  let text ← skip " ADD CONSTRAINT " text
  let (name, text) ← readIdentifier text
  let text ← skip " FOREIGN KEY (" text
  let (columns, text) ← readIdentifierList text
  let text ← skip ") REFERENCES " text
  let (referencedTable, text) ← readIdentifier text
  let text ← skip " (" text
  let (referencedColumns, text) ← readIdentifierList text
  let text ← skip ")" text
  let (onDelete, text) ← ReferentialAction.readClause "DELETE" text
  let (onUpdate, text) ← ReferentialAction.readClause "UPDATE" text
  if text = [';'] then
    return {
      name := .ofList name
      table := .ofList table
      columns := columns.map .ofList
      referencedTable := .ofList referencedTable
      referencedColumns := referencedColumns.map .ofList
      onDelete, onUpdate }
  else none

theorem read?_sql (key : ForeignKey) : read? key.sql.toList = some key := by
  have hd : skip (" ON " ++ "DELETE" ++ " ") ((key.onUpdate.clause "UPDATE").toList ++ ";".toList) =
      none := by
    cases key.onUpdate <;> simp [skip, List.dropPrefix?, ReferentialAction.clause]
  have hu : skip (" ON " ++ "UPDATE" ++ " ") ";".toList = none := by simp [skip, List.dropPrefix?]
  unfold sql
  simp only [String.toList_append, List.append_assoc]
  refine read_then (skip_append _ _) (read_then (readIdentifier_words (by decide) _ _) ?_)
  refine read_then (skip_append _ _) (read_then (readIdentifier_words (by decide) _ _) ?_)
  refine read_then (skip_append _ _) (read_then (readIdentifierList_words (by decide) _ _) ?_)
  refine read_then (skip_append _ _) (read_then (readIdentifier_words (by decide) _ _) ?_)
  refine read_then (skip_append _ _) (read_then (readIdentifierList_words (by decide) _ _) ?_)
  refine read_then (skip_append _ _) (read_then (ReferentialAction.readClause_clause _ hd) ?_)
  refine read_then (ReferentialAction.readClause_clause _ hu) ?_
  simp only [String.ofList_toList, map_ofList_toList]
  rfl

end ForeignKey

namespace Index

def readUnique : List Char → Option (Bool × List Char) :=
  readOptional "UNIQUE " (fun text => some (true, text)) false

/-- Reads the columns that an index only includes. Without a clause there are none. -/
def readIncluded : List Char → Option (List (List Char) × List Char) :=
  readOptional " INCLUDE (" (fun text => do
    let (names, text) ← readIdentifierList text
    let text ← skip ")" text
    return (names, text)) []

def read? (text : List Char) : Option Index := do
  let text ← skip "CREATE " text
  let (isUnique, text) ← readUnique text
  let text ← skip "NONCLUSTERED INDEX " text
  let (name, text) ← readIdentifier text
  let text ← skip " ON " text
  let (table, text) ← readIdentifier text
  let text ← skip " (" text
  let (columns, text) ← readIdentifierList text
  let text ← skip ")" text
  let (included, text) ← readIncluded text
  if text = [';'] then
    return {
      name := .ofList name
      table := .ofList table
      isUnique
      columns := columns.map .ofList
      included := included.map .ofList }
  else none

theorem readUnique_append (isUnique : Bool) (rest : List Char) :
    readUnique ((if isUnique then "UNIQUE " else "").toList
      ++ ("NONCLUSTERED INDEX ".toList ++ rest)) =
      some (isUnique, "NONCLUSTERED INDEX ".toList ++ rest) := by
  cases isUnique with
  | true => exact readOptional_append _
  | false => exact readOptional_of_skip (by simp [skip, List.dropPrefix?])

/-- Included columns are read back, also where there are none. -/
theorem readIncluded_append (included : List String) :
    readIncluded ((if included.isEmpty then "" else " INCLUDE (" ++ identifierList included
      ++ ")").toList ++ ";".toList) =
      some (included.map (·.toList), ";".toList) := by
  cases included with
  | nil => exact readOptional_of_skip (by simp [skip, List.dropPrefix?])
  | cons first rest =>
    simp only [List.isEmpty_cons, Bool.false_eq_true, if_false, String.toList_append,
      List.append_assoc]
    rw [readIncluded, readOptional_append]
    exact read_then (readIdentifierList_words (by decide) _ _) (read_then (skip_append _ _) rfl)

/-- The statement of an index does not begin as that of a foreign key does. -/
theorem foreignKey_read?_sql (index : Index) : ForeignKey.read? index.sql.toList = none := by
  unfold sql
  simp [ForeignKey.read?, skip, List.dropPrefix?]

theorem read?_sql (index : Index) : read? index.sql.toList = some index := by
  unfold sql
  simp only [String.toList_append, List.append_assoc]
  refine read_then (skip_append _ _) (read_then (readUnique_append _ _) ?_)
  refine read_then (skip_append _ _) (read_then (readIdentifier_words (by decide) _ _) ?_)
  refine read_then (skip_append _ _) (read_then (readIdentifier_words (by decide) _ _) ?_)
  refine read_then (skip_append _ _) (read_then (readIdentifierList_words (by decide) _ _) ?_)
  refine read_then (skip_append _ _) (read_then (readIncluded_append _) ?_)
  simp only [String.ofList_toList, map_ofList_toList]
  rfl

end Index

/-- A statement says which key or which index it is about, in every field and whatever characters
the names have: it is read back as that one. So keys of equal statements are equal, and so are
indexes, and no key shares its statement with an index. -/
theorem statements_determine_definitions :
    (∀ key : ForeignKey, ForeignKey.read? key.sql.toList = some key) ∧
    (∀ index : Index, Index.read? index.sql.toList = some index) ∧
    Function.Injective ForeignKey.sql ∧ Function.Injective Index.sql ∧
    ∀ (key : ForeignKey) (index : Index), key.sql ≠ index.sql := by
  refine ⟨ForeignKey.read?_sql, Index.read?_sql, fun key other h => ?_, fun index other h => ?_,
    fun key index h => ?_⟩
  · have hr := key.read?_sql
    rw [h, other.read?_sql] at hr
    exact (Option.some.inj hr).symm
  · have hr := index.read?_sql
    rw [h, other.read?_sql] at hr
    exact (Option.some.inj hr).symm
  · have hr := key.read?_sql
    rw [h, index.foreignKey_read?_sql] at hr
    cases hr

/-- A key whose names look like words of its statement. -/
def sampleKey : ForeignKey :=
  ⟨"K) REFERENCES [X] (", "T", ["a"], "R] ON DELETE CASCADE", ["b"], .noAction, .setNull⟩

/-- A name that looks like the end of a list is told from that end, and a name that looks like two
from two names. -/
theorem statements_determine_sample :
    sampleKey.sql = "ALTER TABLE [T] ADD CONSTRAINT [K) REFERENCES [X]] (] FOREIGN KEY ([a]) " ++
      "REFERENCES [R]] ON DELETE CASCADE] ([b]) ON UPDATE SET NULL;" ∧
    ForeignKey.read? sampleKey.sql.toList = some sampleKey ∧
    (⟨"K", "T", ["a], [b"], "R", ["c"], .noAction, .noAction⟩ : ForeignKey).sql ≠
      (⟨"K", "T", ["a", "b"], "R", ["c"], .noAction, .noAction⟩ : ForeignKey).sql ∧
    (⟨"I", "T", false, ["a"], ["b"]⟩ : Index).sql ≠
      (⟨"I", "T", false, ["a) INCLUDE ([b"], []⟩ : Index).sql := by
  obtain ⟨hr, -, hk, hi, -⟩ := statements_determine_definitions
  exact ⟨by decide +kernel, hr sampleKey, fun h => absurd (hk h) (by decide),
    fun h => absurd (hi h) (by decide)⟩

end CatalogDdl
