import CatalogDdl.Text.Quoted
import Mathlib.Data.List.TakeWhile

/-!
# Reading quoted names

The readers take back what was quoted and leave what follows it, whatever the text holds: a mark
inside the text is doubled, so the first one that stands alone is the last one of the quoted text. A
list of names is read name by name, since each of them ends before its comma.
-/
namespace CatalogDdl.Text

variable {mark c : Char} {text name after : List Char}

theorem readDoubled_of_ne (h : c ≠ mark) (rest : List Char) : readDoubled mark (c :: rest) =
    (readDoubled mark rest).map fun (text, after) => (c :: text, after) := by
  cases rest <;> simp [readDoubled, h]

theorem readDoubled_mark_mark (mark : Char) (rest : List Char) :
    readDoubled mark (mark :: mark :: rest) =
    (readDoubled mark rest).map fun (text, after) => (mark :: text, after) := by
  simp [readDoubled]

/-- A mark ends the text if no other one follows it. -/
theorem readDoubled_mark (h : after.head? ≠ some mark) :
    readDoubled mark (mark :: after) = some ([], after) := by
  cases after with
  | nil => simp [readDoubled]
  | cons c rest =>
    have hc : c ≠ mark := by simpa using h
    simp [readDoubled, hc]

theorem readDoubled_doubled (text : List Char) (h : after.head? ≠ some mark) :
    readDoubled mark (doubled mark text ++ mark :: after) = some (text, after) := by
  induction text with
  | nil => exact readDoubled_mark h
  | cons c text ih =>
    by_cases hc : c = mark
    · rw [doubled_cons, if_pos hc, hc, List.cons_append, List.cons_append, readDoubled_mark_mark,
        ih, Option.map_some]
    · rw [doubled_cons, if_neg hc, List.cons_append, readDoubled_of_ne hc, ih, Option.map_some]

/-- Only quoted texts are read. -/
theorem eq_of_readDoubled (h : readDoubled mark text = some (name, after)) :
    text = doubled mark name ++ mark :: after := by
  fun_induction readDoubled mark text generalizing name with
  | case1 => cases h
  | case2 => cases h; rfl
  | case3 => cases h
  | case4 c d rest hc ih =>
    obtain ⟨⟨name, after⟩, hr, he⟩ := Option.map_eq_some_iff.mp h
    cases he
    rw [doubled_cons, if_neg hc, List.cons_append, ← ih hr]
  | case5 c rest hc ih =>
    obtain ⟨⟨name, after⟩, hr, he⟩ := Option.map_eq_some_iff.mp h
    cases he
    rw [doubled_cons, if_pos rfl, List.cons_append, List.cons_append, ← ih hr]
    simpa using hc
  | case6 c d rest hc hd =>
    cases h
    simpa using hc

theorem readIdentifier_identifier (name : String) (h : after.head? ≠ some ']') :
    readIdentifier ((identifier name).toList ++ after) = some (name.toList, after) := by
  rw [toList_identifier, List.cons_append, List.append_assoc]
  exact readDoubled_doubled _ h

theorem readLiteral_literal (text : String) (h : after.head? ≠ some '\'') :
    readLiteral ((literal text).toList ++ after) = some (text.toList, after) := by
  rw [toList_literal, List.cons_append, List.append_assoc]
  exact readDoubled_doubled _ h

theorem length_readDoubled (h : readDoubled mark text = some (name, after)) :
    after.length < text.length := by
  rw [eq_of_readDoubled h, List.length_append, List.length_cons]
  omega

theorem length_readIdentifier (h : readIdentifier text = some (name, after)) :
    after.length < text.length := by
  unfold readIdentifier at h
  split at h
  · exact Nat.lt_succ_of_lt (length_readDoubled h)
  · cases h

theorem length_readLiteral (h : readLiteral text = some (name, after)) :
    after.length < text.length := by
  unfold readLiteral at h
  split at h
  · exact Nat.lt_succ_of_lt (length_readDoubled h)
  · cases h

/-- Reads bracketed names as long as a comma follows, and the spaces behind each comma. -/
def readNames (text : List Char) : Option (List (List Char) × List Char) :=
  match _ : readIdentifier text with
  | some (name, ',' :: rest) =>
    (readNames (rest.dropWhile (· = ' '))).map fun (names, after) => (name :: names, after)
  | some (name, after) => some ([name], after)
  | none => none
termination_by text.length
decreasing_by
  have hd := List.length_dropWhile_le (· = ' ') rest
  have hl := length_readIdentifier ‹_›
  rw [List.length_cons] at hl
  omega

/-- Reads a list of names. Without an opening bracket the list is empty. -/
def readIdentifierList (text : List Char) : Option (List (List Char) × List Char) :=
  if text.head? = some '[' then readNames text else some ([], text)

theorem readNames_comma {rest : List Char} (h : readIdentifier text = some (name, ',' :: rest)) :
    readNames text = (readNames (rest.dropWhile (· = ' '))).map fun (names, after) =>
      (name :: names, after) := by
  rw [readNames]
  split <;> simp_all

/-- The last name is the one that no comma follows. -/
theorem readNames_last (h : readIdentifier text = some (name, after))
    (hc : after.head? ≠ some ',') :
    readNames text = some ([name], after) := by
  rw [readNames]
  split
  · next he =>
    cases h.symm.trans he
    exact absurd rfl hc
  · next he =>
    cases h.symm.trans he
    rfl
  · next he => cases h.symm.trans he

theorem toList_identifierList_cons_cons (first second : String) (rest : List String) :
    (identifierList (first :: second :: rest)).toList =
      (identifier first).toList ++ ',' :: ' ' :: (identifierList (second :: rest)).toList := by
  simp [identifierList, String.intercalate_cons_cons]

/-- A list with a name in it begins with a bracket. -/
theorem toList_identifierList_cons (first : String) (rest : List String) :
    ∃ tail, (identifierList (first :: rest)).toList = '[' :: tail := by
  cases rest with
  | nil =>
    rw [identifierList, List.map_singleton, String.intercalate_singleton, toList_identifier]
    exact ⟨_, rfl⟩
  | cons second rest =>
    rw [toList_identifierList_cons_cons, toList_identifier]
    exact ⟨_, rfl⟩

/-- A list of names is read back as far as its end. -/
theorem readNames_identifierList (first : String) (rest : List String) (after : List Char) :
    readNames ((identifierList (first :: rest)).toList ++ ')' :: after) =
      some ((first :: rest).map (·.toList), ')' :: after) := by
  induction rest generalizing first with
  | nil =>
    rw [identifierList, List.map_singleton, String.intercalate_singleton]
    exact readNames_last (readIdentifier_identifier first (by simp)) (by simp)
  | cons second rest ih =>
    have hr := ih second
    obtain ⟨tail, ht⟩ := toList_identifierList_cons second rest
    rw [ht, List.cons_append] at hr
    rw [toList_identifierList_cons_cons, List.append_assoc, ht]
    -- the space goes with the comma, and the bracket behind it stays
    exact (readNames_comma (readIdentifier_identifier first (by simp))).trans (congrArg _ hr)

theorem readIdentifierList_identifierList (names : List String) (after : List Char) :
    readIdentifierList ((identifierList names).toList ++ ')' :: after) =
      some (names.map (·.toList), ')' :: after) := by
  cases names with
  | nil => rfl
  | cons first rest =>
    obtain ⟨tail, ht⟩ := toList_identifierList_cons first rest
    rw [readIdentifierList, if_pos, readNames_identifierList]
    rw [ht, List.cons_append, List.head?_cons]

end CatalogDdl.Text
