import CatalogDdl.Proofs.Text.Blank

/-!
# Words of a text

A word is a run of characters that are no blanks, between blanks or the ends of the text. The first
word of a text is what stands between the blanks in front and the next blank, and the other words
are those of the rest.
-/
namespace CatalogDdl.Text

/-- A text without blanks that is not empty. -/
structure IsWord (w : List Char) : Prop where
  nonempty : w ≠ []
  unblank : ∀ c ∈ w, isBlank c = false

variable {s w gap rest : List Char} {ws : List (List Char)}

theorem words_append_cons {b : Char} (hb : isBlank b = true) (s t : List Char) :
    words (s ++ b :: t) = words s ++ words t := by
  rw [words, List.splitOnP_append_cons s t hb, List.filter_append]
  rfl

theorem words_eq_singleton (h : IsWord w) : words w = [w] := by
  simp [words, List.splitOnP_eq_singleton h.unblank, h.nonempty]

theorem words_blanks_append (h : ∀ c ∈ gap, isBlank c = true) (s : List Char) :
    words (gap ++ s) = words s := by
  induction gap with
  | nil => rfl
  | cons c gap ih =>
    rw [List.forall_mem_cons] at h
    rw [List.cons_append, ← ih h.2]
    exact words_append_cons h.1 [] (gap ++ s)

/-- A word ends at the end of the text or before a blank. -/
theorem words_append (h : IsWord w) (hr : ∀ c ∈ rest.head?, isBlank c = true) :
    words (w ++ rest) = w :: words rest := by
  cases rest with
  | nil =>
    rw [List.append_nil, words_eq_singleton h]
    rfl
  | cons c rest =>
    have hc := hr c rfl
    have hb : words (c :: rest) = words rest := words_append_cons hc [] rest
    rw [words_append_cons hc, words_eq_singleton h, hb]
    rfl

/-- A character that is no blank is in a word. -/
theorem exists_mem_words {c : Char} {s : List Char} (hc : c ∈ s) (hb : isBlank c = false) :
    ∃ w ∈ words s, c ∈ w := by
  have hp : ∃ w ∈ s.splitOnP isBlank, c ∈ w := by
    induction s with
    | nil => simp at hc
    | cons x s ih =>
      rw [List.splitOnP_cons_eq_if_modifyHead]
      obtain ⟨first, rest, hs⟩ := List.exists_cons_of_ne_nil (List.splitOnP_ne_nil isBlank s)
      rcases List.mem_cons.mp hc with rfl | hc
      · rw [hb, hs]
        exact ⟨c :: first, by simp, by simp⟩
      · obtain ⟨w, hw, hcw⟩ := ih hc
        rw [hs] at hw ⊢
        split
        · exact ⟨w, List.mem_cons_of_mem _ hw, hcw⟩
        · rcases List.mem_cons.mp hw with rfl | hw
          · exact ⟨x :: w, by simp, List.mem_cons_of_mem _ hcw⟩
          · exact ⟨w, by simp [hw], hcw⟩
  obtain ⟨w, hw, hcw⟩ := hp
  refine ⟨w, List.mem_filter.mpr ⟨hw, ?_⟩, hcw⟩
  cases w with
  | nil => simp at hcw
  | cons => rfl

/-- Only blanks have no words. -/
theorem words_eq_nil_iff : words s = [] ↔ ∀ c ∈ s, isBlank c = true := by
  constructor
  · intro h c hc
    by_contra hb
    obtain ⟨w, hw, -⟩ := exists_mem_words hc (by simpa using hb)
    rw [h] at hw
    cases hw
  · intro h
    have hw := words_blanks_append h []
    rwa [List.append_nil] at hw

/-- The first word is what stands between the blanks in front and the next blank. -/
theorem words_eq_cons_iff : words s = w :: ws ↔ ∃ gap rest, s = gap ++ (w ++ rest) ∧
    (∀ c ∈ gap, isBlank c = true) ∧
    IsWord w ∧ (∀ c ∈ rest.head?, isBlank c = true) ∧ words rest = ws := by
  constructor
  · intro h
    obtain ⟨gap, text, rfl, hg, ht⟩ : ∃ gap text, s = gap ++ text ∧ (∀ c ∈ gap, isBlank c = true) ∧
        ∀ c ∈ text.head?, isBlank c = false :=
      ⟨s.takeWhile isBlank, s.dropWhile isBlank, List.takeWhile_append_dropWhile.symm,
        fun c => List.mem_takeWhile_imp, fun c => not_of_mem_head?_dropWhile⟩
    obtain ⟨word, rest, rfl, hw, hr⟩ : ∃ word rest, text = word ++ rest ∧
        (∀ c ∈ word, isBlank c = false) ∧ ∀ c ∈ rest.head?, isBlank c = true :=
      ⟨text.takeWhile (!isBlank ·), text.dropWhile (!isBlank ·),
        List.takeWhile_append_dropWhile.symm,
        fun c hc => by simpa using List.mem_takeWhile_imp hc,
        fun c hc => by simpa using not_of_mem_head?_dropWhile hc⟩
    rw [words_blanks_append hg] at h
    have hne : word ≠ [] := by
      rintro rfl
      cases rest with
      | nil => cases h
      | cons c rest =>
        have hb := hr c rfl
        rw [ht c rfl] at hb
        cases hb
    rw [words_append ⟨hne, hw⟩ hr] at h
    obtain ⟨rfl, rfl⟩ := List.cons.inj h
    exact ⟨gap, rest, rfl, hg, ⟨hne, hw⟩, hr, rfl⟩
  · rintro ⟨gap, rest, rfl, hg, hw, hr, rfl⟩
    rw [words_blanks_append hg, words_append hw hr]

/-- Behind a word that a blank must follow, the next word is apart from it. -/
theorem IsWord.gap_ne_nil (h : IsWord w) (hr : ∀ c ∈ (gap ++ (w ++ rest)).head?, isBlank c = true) :
    gap ≠ [] := by
  rintro rfl
  obtain ⟨c, tail, rfl⟩ := List.exists_cons_of_ne_nil h.nonempty
  have hb := h.unblank c List.mem_cons_self
  rw [hr c rfl] at hb
  cases hb

end CatalogDdl.Text
