import CatalogDdl.Proofs.Text.Quoted
import CatalogDdl.Script.Basic

/-!
# Guards of drops

A statement that drops a table or a routine names it twice: in brackets, and in the literal of its
guard, where the brackets are quoted once more. Read token by token, the statement has the same
tokens whatever the name is, and the guard asks for the name that the statement drops.
-/
namespace CatalogDdl

namespace Text

/-- A name, a literal, or a character outside of both. -/
inductive Token where
  | char (c : Char)
  | name (text : List Char)
  | literal (text : List Char)
  deriving DecidableEq, Repr

/-- Reads one token. A bracket or a quote begins a name or a literal, and there is no token if that
has no end. -/
def readToken : List Char → Option (Token × List Char)
  | [] => none
  | c :: rest =>
    if c = '[' then (readIdentifier (c :: rest)).map fun (text, after) => (.name text, after)
    else if c = '\'' then (readLiteral (c :: rest)).map fun (text, after) => (.literal text, after)
    else some (.char c, rest)

/-- Reading a token takes at least one character. -/
theorem length_readToken {text after : List Char} {token : Token}
    (h : readToken text = some (token, after)) :
    after.length < text.length := by
  unfold readToken at h
  split at h
  · cases h
  · split at h
    · obtain ⟨⟨name, after⟩, hr, he⟩ := Option.map_eq_some_iff.mp h
      cases he
      exact length_readIdentifier hr
    · split at h
      · obtain ⟨⟨name, after⟩, hr, he⟩ := Option.map_eq_some_iff.mp h
        cases he
        exact length_readLiteral hr
      · cases h
        exact Nat.lt_succ_self _

/-- The tokens of a text. There are none if a name or a literal has no end. -/
def tokens (text : List Char) : Option (List Token) :=
  if text = [] then some []
  else
    match _ : readToken text with
    | some (token, after) => (tokens after).map (token :: ·)
    | none => none
termination_by text.length
decreasing_by exact length_readToken ‹_›

def chars (text : String) : List Token := text.toList.map .char

/-- The text has no bracket that opens a name and no quote. -/
def Unquoted (text : String) : Prop := '[' ∉ text.toList ∧ '\'' ∉ text.toList

instance : DecidablePred Unquoted := fun text =>
  inferInstanceAs (Decidable ('[' ∉ text.toList ∧ '\'' ∉ text.toList))

variable {text after : List Char}

@[simp] theorem tokens_nil : tokens [] = some [] := by
  rw [tokens, if_pos rfl]

theorem tokens_of_readToken {token : Token} (h : readToken text = some (token, after)) :
    tokens text = (tokens after).map (token :: ·) := by
  have hn : text ≠ [] := by
    rintro rfl
    cases h
  rw [tokens, if_neg hn]
  split <;> simp_all

theorem tokens_identifier (name : String) (h : after.head? ≠ some ']') :
    tokens ((identifier name).toList ++ after) = (tokens after).map (.name name.toList :: ·) := by
  have hr := readIdentifier_identifier name h
  refine tokens_of_readToken ?_
  rw [toList_identifier, List.cons_append] at hr ⊢
  rw [readToken, if_pos rfl, hr, Option.map_some]

theorem tokens_literal (text : String) (h : after.head? ≠ some '\'') :
    tokens ((literal text).toList ++ after) = (tokens after).map (.literal text.toList :: ·) := by
  have hr := readLiteral_literal text h
  refine tokens_of_readToken ?_
  rw [toList_literal, List.cons_append] at hr ⊢
  rw [readToken, if_neg (by decide), if_pos rfl, hr, Option.map_some]

/-- A text that quotes nothing is read character by character. -/
theorem tokens_chars {text : String} (h : Unquoted text) (after : List Char) :
    tokens (text.toList ++ after) = (tokens after).map (chars text ++ ·) := by
  obtain ⟨hn, hl⟩ := h
  rw [chars]
  generalize text.toList = text at hn hl ⊢
  induction text with
  | nil => simp
  | cons c rest ih =>
    rw [List.mem_cons, not_or] at hn hl
    have hr : readToken (c :: (rest ++ after)) = some (.char c, rest ++ after) := by
      rw [readToken, if_neg (Ne.symm hn.1), if_neg (Ne.symm hl.1)]
    rw [List.cons_append, tokens_of_readToken hr, ih hn.2 hl.2, Option.map_map]
    rfl

theorem doubled_of_not_mem {mark : Char} (h : mark ∉ text) : doubled mark text = text := by
  induction text with
  | nil => rfl
  | cons c rest ih =>
    rw [List.mem_cons, not_or] at h
    rw [doubled_cons, if_neg (Ne.symm h.1), ih h.2]

/-- A text without a quote stands in a literal as it is. -/
theorem literal_of_unquoted {text : String} (h : Unquoted text) :
    literal text = "'" ++ text ++ "'" := by
  rw [← String.toList_inj, toList_literal, doubled_of_not_mem h.2]
  simp

end Text
open Text

/-- The tokens of a statement that drops an object: the literal that its guard asks for, the code of
its type, and the name that it drops. -/
def dropTokens (typeCode word : String) (guard name : List Char) : List Token :=
  chars "IF OBJECT_ID(" ++ .literal guard :: (chars ", " ++ .literal typeCode.toList ::
    (chars ") IS NOT NULL DROP " ++ (chars word ++ (chars " " ++ .name name :: chars ";\n"))))

/-- The code of the type is a literal as well. -/
theorem dropObject_eq {typeCode : String} (ht : Unquoted typeCode) (word name : String) :
    dropObject typeCode word name =
    "IF OBJECT_ID(" ++ literal (identifier name) ++ ", " ++ literal typeCode
      ++ ") IS NOT NULL DROP " ++ word ++ " "
      ++ identifier name ++ ";\n" := by
  have hf : ", '" = ", " ++ "'" := by decide
  have hs : "') IS NOT NULL DROP " = "'" ++ ") IS NOT NULL DROP " := by decide
  unfold dropObject
  rw [literal_of_unquoted ht, hf, hs]
  simp only [String.append_assoc]

/-- The guard of a drop asks for what is dropped. -/
theorem tokens_dropObject {typeCode word : String} (ht : Unquoted typeCode) (hw : Unquoted word)
    (name : String) :
    tokens (dropObject typeCode word name).toList =
      some (dropTokens typeCode word (identifier name).toList name.toList) := by
  have he : tokens ";\n".toList = some (chars ";\n") := by
    have hc := tokens_chars (by decide : Unquoted ";\n") []
    rwa [tokens_nil, Option.map_some, List.append_nil, List.append_nil] at hc
  have hc (rest : List Char) : (", ".toList ++ rest).head? ≠ some '\'' := by simp
  have hp (rest : List Char) : (") IS NOT NULL DROP ".toList ++ rest).head? ≠ some '\'' := by simp
  have hs : (";\n".toList).head? ≠ some ']' := by simp
  rw [dropObject_eq ht]
  simp only [String.toList_append, List.append_assoc]
  rw [tokens_chars (by decide), tokens_literal _ (hc _), tokens_chars (by decide),
    tokens_literal _ (hp _), tokens_chars (by decide), tokens_chars hw, tokens_chars (by decide),
    tokens_identifier _ hs, he]
  rfl

theorem Routine.Kind.unquoted_typeCode (kind : Routine.Kind) : Unquoted kind.typeCode := by
  cases kind <;> decide

theorem Routine.Kind.unquoted_word (kind : Routine.Kind) : Unquoted kind.word := by
  cases kind <;> decide

/-- No text breaks out of its quotes. What is quoted is read back, up to the mark that ends it, and
so is each name of a list. A statement that drops a table or a routine has the tokens of such a
statement whatever the name is, and the literal of its guard is the quoted name that it drops. -/
theorem quotes_stay_closed :
    (∀ (name : String) (after : List Char), after.head? ≠ some ']' →
      readIdentifier ((identifier name).toList ++ after) = some (name.toList, after)) ∧
    (∀ (text : String) (after : List Char), after.head? ≠ some '\'' →
      readLiteral ((literal text).toList ++ after) = some (text.toList, after)) ∧
    (∀ (names : List String) (after : List Char),
      readIdentifierList ((identifierList names).toList ++ ')' :: after) =
        some (names.map (·.toList), ')' :: after)) ∧
    (∀ table : Table, ∃ guard, tokens table.dropSql.toList =
      some (dropTokens "U" "TABLE" guard table.name.toList) ∧
      readIdentifier guard = some (table.name.toList, [])) ∧
    ∀ (kind : Routine.Kind) (routine : Routine), ∃ guard,
      tokens (routine.dropSql kind).toList =
        some (dropTokens kind.typeCode kind.word guard routine.name.toList) ∧
      readIdentifier guard = some (routine.name.toList, []) := by
  have hg (name : String) : readIdentifier (identifier name).toList = some (name.toList, []) := by
    have hr : readIdentifier ((identifier name).toList ++ []) = some (name.toList, []) :=
      readIdentifier_identifier name (by simp)
    rwa [List.append_nil] at hr
  refine ⟨fun name _ h => readIdentifier_identifier name h,
    fun text _ h => readLiteral_literal text h, readIdentifierList_identifierList, fun table =>
      ⟨_, ?_, hg _⟩, fun kind routine => ⟨_, ?_, hg _⟩⟩
  · exact tokens_dropObject (by decide) (by decide) table.name
  · exact tokens_dropObject kind.unquoted_typeCode kind.unquoted_word routine.name

/-- Names that look like the end of what quotes them. -/
theorem quotes_stay_closed_sample :
    readIdentifier "[a]]]]; DROP TABLE [b]; ".toList =
      some ("a]]; DROP TABLE [b".toList, "; ".toList) ∧
    readLiteral "'it''s'''), 'U'".toList = some ("it's'".toList, "), 'U'".toList) ∧
    readIdentifierList "[a]], [b], [)])".toList = some (["a], [b".toList, ")".toList], ")".toList) ∧
    ∃ guard, tokens "IF OBJECT_ID('[O''K]]]', 'U') IS NOT NULL DROP TABLE [O'K]]];\n".toList =
        some (dropTokens "U" "TABLE" guard "O'K]".toList) ∧
      readIdentifier guard = some ("O'K]".toList, []) := by
  obtain ⟨hi, hl, hn, ht, -⟩ := quotes_stay_closed
  refine ⟨?_, ?_, ?_, ?_⟩
  · exact hi "a]]; DROP TABLE [b" "; ".toList (by decide)
  · exact hl "it's'" "), 'U'".toList (by decide)
  · exact hn ["a], [b", ")"] []
  · exact ht ⟨"O'K]", [], [], [], []⟩

end CatalogDdl
