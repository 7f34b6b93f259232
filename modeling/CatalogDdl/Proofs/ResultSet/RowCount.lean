import CatalogDdl.Proofs.Text.Numeral
import CatalogDdl.Proofs.Text.Words
import CatalogDdl.ResultSet.RowCount

/-!
# The form of row counts

A row count is made of three words in parentheses, with blanks between the words and wherever else
there may be some. So it has no characters but letters, digits, parentheses and blanks, and the line
by which a number of rows is announced is one.
-/
namespace CatalogDdl

/-- If it has the letters of a word in another case, a text is a word. -/
theorem Text.isWord_of_sameLetters {s t : List Char} (h : sameLetters s t = true) (hn : t ≠ [])
    (ht : (t.map Char.toLower).all (!isBlank ·) = true) : IsWord s := by
  have he := (sameLetters_iff s t).mp h
  refine ⟨?_, fun c hc => ?_⟩
  · rintro rfl
    exact hn (List.map_eq_nil_iff.mp he.symm)
  · by_contra hb
    have hl : blanks.all (fun b => b.toLower = b) = true := by decide
    rw [Bool.not_eq_false] at hb
    have hc := List.all_eq_true.mp ht _ (he ▸ List.mem_map_of_mem hc)
    rw [of_decide_eq_true (List.all_eq_true.mp hl c ((isBlank_iff c).mp hb)), hb] at hc
    cases hc

namespace ResultSet
open Text

theorem inParentheses?_eq_some {s phrase : List Char} :
    inParentheses? s = some phrase ↔ s = '(' :: (phrase ++ [')']) := by
  constructor
  · intro h
    rw [inParentheses?.eq_def] at h
    split at h
    · next rest =>
      split at h
      · next hl =>
        obtain ⟨front, rfl⟩ := List.getLast?_eq_some_iff.mp hl
        simp_all
      · contradiction
    · contradiction
  · rintro rfl
    simp [inParentheses?]

/-- A count phrase has three words: digits, a noun and a marker. -/
theorem isCountPhrase_iff {ws : List (List Char)} : isCountPhrase ws = true ↔ ∃ count noun marker,
    ws = [count, noun, marker] ∧ (∀ c ∈ count, c.isDigit = true) ∧
      (sameLetters noun ['r', 'o', 'w'] = true ∨ sameLetters noun ['r', 'o', 'w', 's'] = true) ∧
      sameLetters marker ['a', 'f', 'f', 'e', 'c', 't', 'e', 'd'] = true := by
  constructor
  · intro h
    rw [isCountPhrase.eq_def] at h
    split at h
    · next count noun marker =>
      simp only [Bool.and_eq_true, Bool.or_eq_true, List.all_eq_true] at h
      exact ⟨count, noun, marker, rfl, h.1.1, h.1.2, h.2⟩
    · contradiction
  · rintro ⟨count, noun, marker, rfl, hc, hn, hm⟩
    simp only [isCountPhrase, Bool.and_eq_true, Bool.or_eq_true, List.all_eq_true]
    exact ⟨⟨hc, hn⟩, hm⟩

/-- A row count is a phrase in parentheses, with blanks around it. -/
theorem isRowCount_iff {line : List Char} : isRowCount line = true ↔
    ∃ phrase, trim line = '(' :: (phrase ++ [')']) ∧ isCountPhrase (words phrase) = true := by
  rw [isRowCount]
  cases h : inParentheses? (trim line) with
  | none =>
    simp only [Bool.false_eq_true, false_iff]
    rintro ⟨phrase, hp, -⟩
    rw [inParentheses?_eq_some.mpr hp] at h
    contradiction
  | some phrase =>
    rw [inParentheses?_eq_some] at h
    simp [h]

/-- Blanks around a line do not make it a row count. -/
@[simp] theorem isRowCount_trim (line : List Char) : isRowCount (trim line) = isRowCount line := by
  simp [isRowCount]

theorem mem_of_sameLetters {s t : List Char} {c : Char} (h : sameLetters s t = true) (hc : c ∈ s) :
    c.toLower ∈ t.map Char.toLower :=
  (sameLetters_iff s t).mp h ▸ List.mem_map_of_mem hc

/-- The bar is in no row count. -/
theorem bar_not_mem_of_isRowCount {line : List Char} (h : isRowCount line = true) : '|' ∉ line := by
  intro hm
  obtain ⟨phrase, ht, hp⟩ := isRowCount_iff.mp h
  obtain ⟨count, noun, marker, hw, hc, hn, hk⟩ := isCountPhrase_iff.mp hp
  have hb : '|' ∈ phrase := by
    have hl := mem_trim hm (by decide)
    rw [ht] at hl
    simpa using hl
  obtain ⟨w, hm, hwb⟩ := exists_mem_words hb (by decide)
  rw [hw] at hm
  simp only [List.mem_cons, List.not_mem_nil, or_false] at hm
  rcases hm with rfl | rfl | rfl
  · exact absurd (hc _ hwb) (by decide)
  · rcases hn with hn | hn
    · exact absurd (mem_of_sameLetters hn hwb) (by decide)
    · exact absurd (mem_of_sameLetters hn hwb) (by decide)
  · exact absurd (mem_of_sameLetters hk hwb) (by decide)

/-- A row count part by part. Blanks may stand between any two parts, and some stand between two of
its words. -/
structure CountForm where
  (before front count gap noun space marker back after : List Char)
  blank : ∀ text ∈ [before, front, gap, space, back, after], ∀ c ∈ text, isBlank c = true
  apart : gap ≠ [] ∧ space ≠ []
  counted : count ≠ [] ∧ ∀ c ∈ count, c.isDigit = true
  named : sameLetters noun "row".toList = true ∨ sameLetters noun "rows".toList = true
  marked : sameLetters marker "affected".toList = true

namespace CountForm

def phrase (form : CountForm) : List Char :=
  form.front
    ++ (form.count ++ (form.gap ++ (form.noun ++ (form.space ++ (form.marker ++ form.back)))))

def text (form : CountForm) : List Char :=
  form.before ++ ('(' :: (form.phrase ++ [')']) ++ form.after)

variable (form : CountForm)

theorem isWord_count : IsWord form.count :=
  ⟨form.counted.1, fun c hc => isBlank_of_isDigit (form.counted.2 c hc)⟩

theorem isWord_noun : IsWord form.noun := by
  rcases form.named with h | h
  · exact isWord_of_sameLetters h (by decide) (by decide)
  · exact isWord_of_sameLetters h (by decide) (by decide)

theorem isWord_marker :
    IsWord form.marker := isWord_of_sameLetters form.marked (by decide) (by decide)

theorem words_phrase : words form.phrase = [form.count, form.noun, form.marker] := by
  have hb := form.blank
  simp only [List.forall_mem_cons] at hb
  obtain ⟨-, hf, hg, hs, hk, -⟩ := hb
  have hfirst {gap : List Char} (hn : gap ≠ []) (hg : ∀ c ∈ gap,
      isBlank c = true) (rest : List Char) :
      ∀ c ∈ (gap ++ rest).head?, isBlank c = true := by
    intro c hc
    rw [List.head?_append_of_ne_nil _ hn] at hc
    exact hg c (List.mem_of_mem_head? hc)
  rw [phrase, words_blanks_append hf, words_append form.isWord_count (hfirst form.apart.1 hg _),
    words_blanks_append hg, words_append form.isWord_noun (hfirst form.apart.2 hs _),
    words_blanks_append hs,
    words_append form.isWord_marker fun c hc =>
      hk c (List.mem_of_mem_head? hc), words_eq_nil_iff.mpr hk]

theorem isRowCount_text : isRowCount form.text = true := by
  have hb := form.blank
  simp only [List.forall_mem_cons] at hb
  obtain ⟨hbefore, -, -, -, -, hafter, -⟩ := hb
  have ht : Trimmed ('(' :: (form.phrase ++ [')'])) :=
      .cons_concat (by decide) (by decide) form.phrase
  refine isRowCount_iff.mpr ⟨form.phrase, ?_, isCountPhrase_iff.mpr ?_⟩
  · rw [text, trim_blanks_append hbefore, trim_append_blanks hafter, trim_eq_self ht]
  · exact ⟨_, _, _, form.words_phrase, form.counted.2, form.named, form.marked⟩

end CountForm

/-- A line is a row count if and only if it has these parts. -/
theorem isRowCount_iff_exists_form {line : List Char} :
    isRowCount line = true ↔ ∃ form : CountForm, form.text = line := by
  constructor
  · intro h
    obtain ⟨phrase, ht, hp⟩ := isRowCount_iff.mp h
    obtain ⟨before, after, hbefore, hafter, hline⟩ := exists_blanks_trim line
    obtain ⟨count, noun, marker, hw, hc, hn, hm⟩ := isCountPhrase_iff.mp hp
    -- the words are taken off the phrase one by one, each with the blanks in front of it
    obtain ⟨front, tail, rfl, hfront, hcount, hgap, hw⟩ := words_eq_cons_iff.mp hw
    obtain ⟨gap, tail, rfl, hgap', hnoun, hspace, hw⟩ := words_eq_cons_iff.mp hw
    obtain ⟨space, back, rfl, hspace', hmarker, -, hw⟩ := words_eq_cons_iff.mp hw
    have hback := words_eq_nil_iff.mp hw
    refine ⟨⟨before, front, count, gap, noun, space, marker, back, after, ?_,
      ⟨hnoun.gap_ne_nil hgap, hmarker.gap_ne_nil hspace⟩, ⟨hcount.nonempty, hc⟩, hn, hm⟩, ?_⟩
    · simp only [List.forall_mem_cons]
      exact ⟨hbefore, hfront, hgap', hspace', hback, hafter, by simp⟩
    · rw [hline, ht]
      rfl
  · rintro ⟨form, rfl⟩
    exact form.isRowCount_text

def countLine (n : Nat) : List Char :=
  ("(" ++ toString n ++ " rows affected)").toList

theorem isRowCount_countLine (n : Nat) : isRowCount (countLine n) = true := by
  have hd : ∀ c ∈ Nat.toDigits 10 n, c.isDigit = true :=
    fun c hc => Nat.isDigit_of_mem_toDigits (by omega) (by omega) hc
  have hb : isBlank ' ' = true := by decide
  refine isRowCount_iff_exists_form.mpr ⟨⟨[], [], Nat.toDigits 10 n, [' '], "rows".toList, [' '],
    "affected".toList, [],
    [], by simp [hb], by simp, ⟨Nat.toDigits_ne_nil, hd⟩, by decide, by decide⟩, ?_⟩
  simp [CountForm.text, CountForm.phrase, countLine]

theorem unbroken_countLine (n : Nat) : '\n' ∉ countLine n := by
  have hd : '\n' ∉ Nat.toDigits 10 n := fun hc =>
    absurd (Nat.isDigit_of_mem_toDigits (by omega) (by omega) hc) (by decide)
  simp [countLine, hd]

end ResultSet
end CatalogDdl
