import CatalogDdl.Proofs.Text.Numeral
import CatalogDdl.Script.DataType
import Mathlib.Algebra.Group.Int.Even
import Mathlib.Order.Bounds.Basic

/-!
# Types by their names

A type is its name, as the catalog has it, and what the name in lower case is followed by. Half a
length is rounded toward zero. That is the same as rounding down, but for a length that is negative
and odd.
-/
namespace CatalogDdl.DataType
open Text

def lowered (name : String) : String := String.ofList (name.toList.map Char.toLower)

/-- The names that are followed by a length in bytes. -/
def byteTypes : List String := ["char", "varchar", "binary", "varbinary"]

/-- The names that are followed by a length in characters of two bytes each. -/
def wideTypes : List String := ["nchar", "nvarchar"]

def decimalTypes : List String := ["decimal", "numeric"]

/-- The number is half of another one, rounded down from above zero and up from below. -/
structure HalfTowardZero (m n : Int) : Prop where
  down : 0 ≤ m → IsGreatest {k | 2 * k ≤ m} n
  up : m ≤ 0 → IsLeast {k | m ≤ 2 * k} n

/-- What a name in lower case is followed by. -/
inductive Follows (lower : String) (maxLength precision scale : Int) : String → Prop where
  | unbounded (h : lower ∈ byteTypes ++ wideTypes) (hm : maxLength = -1) :
    Follows lower maxLength precision scale "(MAX)"
  | bytes (h : lower ∈ byteTypes) (hm : maxLength ≠ -1) :
    Follows lower maxLength precision scale ("(" ++ toString maxLength ++ ")")
  | wide {n : Int} (h : lower ∈ wideTypes) (hm : maxLength ≠ -1) (hn : HalfTowardZero maxLength n) :
    Follows lower maxLength precision scale ("(" ++ toString n ++ ")")
  | decimal (h : lower ∈ decimalTypes) :
    Follows lower maxLength precision scale ("(" ++ toString precision ++ ","
      ++ toString scale ++ ")")
  | plain (h : lower ∉ byteTypes ++ wideTypes ++ decimalTypes) :
      Follows lower maxLength precision scale ""

theorem tdiv_two_eq (m : Int) : m.tdiv 2 = if 0 ≤ m ∨ 2 ∣ m then m / 2 else m / 2 + 1 := by
  rw [Int.tdiv_eq_ediv]
  split <;> simp

/-- Half a number rounded down. -/
theorem isGreatest_div_two (m : Int) : IsGreatest {k | 2 * k ≤ m} (m / 2) := by
  refine ⟨?_, fun k hk => ?_⟩
  · simp only [Set.mem_ofPred_eq]
    omega
  · simp only [Set.mem_ofPred_eq] at hk
    omega

/-- Division that drops the remainder rounds toward zero. -/
theorem halfTowardZero_tdiv (m : Int) : HalfTowardZero m (m.tdiv 2) := by
  rw [tdiv_two_eq]
  constructor
  · intro hm
    rw [if_pos (.inl hm)]
    exact isGreatest_div_two m
  · intro hm
    refine ⟨?_, fun k hk => ?_⟩
    · simp only [Set.mem_ofPred_eq]
      split <;> omega
    · simp only [Set.mem_ofPred_eq] at hk
      split <;> omega

theorem HalfTowardZero.unique {m n k : Int} (hn : HalfTowardZero m n) (hk : HalfTowardZero m k) :
    n = k := by
  rcases Int.le_total 0 m with hm | hm
  · exact (hn.down hm).unique (hk.down hm)
  · exact (hn.up hm).unique (hk.up hm)

/-- Rounding toward zero rounds down unless the number is negative and odd. -/
theorem isGreatest_tdiv_iff (m : Int) : IsGreatest {k | 2 * k ≤ m} (m.tdiv 2) ↔ 0 ≤ m ∨ Even m := by
  rw [Int.even_iff, ← Int.dvd_iff_emod_eq_zero, tdiv_two_eq]
  constructor
  · intro h
    by_contra hm
    rw [if_neg hm] at h
    have he := h.unique (isGreatest_div_two m)
    omega
  · intro hm
    rw [if_pos hm]
    exact isGreatest_div_two m

section Family

variable {name : String}

theorem family_eq (name : String) : family name =
    if lowered name ∈ byteTypes then .bytes
    else if lowered name ∈ wideTypes then .wide
    else if lowered name ∈ decimalTypes then .decimal
    else .plain := rfl

theorem family_of_bytes (h : lowered name ∈ byteTypes) :
    family name = .bytes := by rw [family_eq, if_pos h]

theorem family_of_wide (h : lowered name ∈ wideTypes) : family name = .wide := by
  have hb : ∀ lower ∈ wideTypes, lower ∉ byteTypes := by decide
  rw [family_eq, if_neg (hb _ h), if_pos h]

theorem family_of_decimal (h : lowered name ∈ decimalTypes) : family name = .decimal := by
  have hb : ∀ lower ∈ decimalTypes, lower ∉ byteTypes ∧ lower ∉ wideTypes := by decide
  rw [family_eq, if_neg (hb _ h).1, if_neg (hb _ h).2, if_pos h]

theorem family_of_plain (h : lowered name ∉ byteTypes ++ wideTypes ++ decimalTypes) :
    family name = .plain := by
  simp only [List.mem_append, not_or] at h
  rw [family_eq, if_neg h.1.1, if_neg h.1.2, if_neg h.2]

end Family

section Suffix

variable {name : String} {maxLength precision scale : Int}

theorem follows_suffix (name : String) (maxLength precision scale : Int) :
    Follows (lowered name) maxLength precision scale
      (suffix (family name) maxLength precision scale) := by
  by_cases hb : lowered name ∈ byteTypes
  · rw [family_of_bytes hb, suffix]
    split
    · exact .unbounded (List.mem_append_left _ hb) ‹_›
    · exact .bytes hb ‹_›
  by_cases hw : lowered name ∈ wideTypes
  · rw [family_of_wide hw, suffix]
    split
    · exact .unbounded (List.mem_append_right _ hw) ‹_›
    · exact .wide hw ‹_› (halfTowardZero_tdiv _)
  by_cases hd : lowered name ∈ decimalTypes
  · rw [family_of_decimal hd]
    exact .decimal hd
  · have hp : lowered name ∉ byteTypes ++ wideTypes ++ decimalTypes := by simp [hb, hw, hd]
    rw [family_of_plain hp]
    exact .plain hp

/-- The rules leave one suffix. -/
theorem Follows.eq_suffix {text : String}
    (h : Follows (lowered name) maxLength precision scale text) :
    text = suffix (family name) maxLength precision scale := by
  cases h with
  | unbounded h hm =>
    rcases List.mem_append.mp h with hb | hw
    · rw [family_of_bytes hb]
      exact (if_pos hm).symm
    · rw [family_of_wide hw]
      exact (if_pos hm).symm
  | bytes h hm =>
    rw [family_of_bytes h]
    exact (if_neg hm).symm
  | wide h hm hn =>
    rw [family_of_wide h, hn.unique (halfTowardZero_tdiv maxLength)]
    exact (if_neg hm).symm
  | decimal h => rw [family_of_decimal h, suffix]
  | plain h => rw [family_of_plain h, suffix]

theorem render_eq_iff {text : String} : render name maxLength precision scale = text ↔
    ∃ suffix, text = name ++ suffix ∧ Follows (lowered name) maxLength precision scale suffix := by
  constructor
  · rintro rfl
    exact ⟨_, rfl, follows_suffix name maxLength precision scale⟩
  · rintro ⟨suffix, rfl, h⟩
    rw [h.eq_suffix, render]

/-- No number is taken for the word `MAX`. -/
theorem numeral_ne_max (n : Int) (rest : String) : "(" ++ toString n ++ rest ≠ "(MAX)" := by
  intro h
  have hne : (toString n).toList ≠ [] := by
    rw [toList_toString]
    split
    · exact Nat.toDigits_ne_nil
    · exact List.cons_ne_nil _ _
  obtain ⟨c, cs, hc⟩ := List.exists_cons_of_ne_nil hne
  have hl := congrArg String.toList h
  simp only [String.toList_append, hc] at hl
  have hm : c = 'M' := (List.cons.inj (List.cons.inj hl).2).1
  have hd : c.isDigit = true ∨ c = '-' := isDigit_or_sign (hc ▸ List.mem_cons_self)
  rw [hm] at hd
  exact absurd hd (by decide)

/-- Exactly the names with a length are followed by `(MAX)`, where the length is -1. -/
theorem follows_max_iff : Follows (lowered name) maxLength precision scale "(MAX)" ↔
    maxLength = -1 ∧ lowered name ∈ byteTypes ++ wideTypes := by
  refine ⟨fun h => ?_, fun h => .unbounded h.2 h.1⟩
  generalize hs : "(MAX)" = text at h
  cases h with
  | unbounded h hm => exact ⟨hm, h⟩
  | bytes h hm => exact absurd hs.symm (numeral_ne_max _ _)
  | wide h hm hn => exact absurd hs.symm (numeral_ne_max _ _)
  | decimal h =>
    rw [String.append_assoc, String.append_assoc] at hs
    exact absurd hs.symm (numeral_ne_max _ _)
  | plain h => exact absurd hs (by decide)

theorem render_max_iff : render name maxLength precision scale = name ++ "(MAX)" ↔
    maxLength = -1 ∧ lowered name ∈ byteTypes ++ wideTypes := by
  rw [render_eq_iff]
  constructor
  · rintro ⟨suffix, he, h⟩
    rw [← (String.append_right_inj name).mp he] at h
    exact follows_max_iff.mp h
  · exact fun h => ⟨_, rfl, follows_max_iff.mpr h⟩

/-- The number after a wide type is rounded down unless the length is negative and odd. -/
theorem rounds_down_iff (hw : lowered name ∈ wideTypes) (hm : maxLength ≠ -1) :
    (∃ n : Int, render name maxLength precision scale = name ++ ("(" ++ toString n ++ ")") ∧
      IsGreatest {k | 2 * k ≤ maxLength} n) ↔ 0 ≤ maxLength ∨ Even maxLength := by
  have hr : render name maxLength precision scale =
      name ++ ("(" ++ toString (maxLength.tdiv 2) ++ ")") :=
    render_eq_iff.mpr ⟨_, rfl, .wide hw hm (halfTowardZero_tdiv maxLength)⟩
  rw [← isGreatest_tdiv_iff, hr]
  constructor
  · rintro ⟨n, hn, hg⟩
    rw [String.append_right_inj, String.append_left_inj, String.append_right_inj] at hn
    -- Both numbers are read back from one numeral.
    have he : maxLength.tdiv 2 = n := by
      have hi := integer?_toString n
      rw [← hn, integer?_toString] at hi
      exact Option.some.inj hi
    exact he ▸ hg
  · exact fun hg => ⟨_, rfl, hg⟩

end Suffix

/-- A type is its name and what its name in lower case is followed by, whatever the numbers are. It
is unbounded if and only if its length is `-1` and it is one of the six types with a length. The
number after a wide type is the greatest of which twice is at most the length if and only if the
length is even or not negative. -/
theorem render_by_name (name : String) (maxLength precision scale : Int) :
    (∀ text, render name maxLength precision scale = text ↔
      ∃ suffix, text = name ++ suffix ∧ Follows (lowered name) maxLength precision scale suffix) ∧
    (render name maxLength precision scale = name ++ "(MAX)" ↔
      maxLength = -1 ∧ lowered name ∈ byteTypes ++ wideTypes) ∧
    (lowered name ∈ wideTypes → maxLength ≠ -1 →
      ((∃ n : Int, render name maxLength precision scale = name ++ ("(" ++ toString n ++ ")") ∧
        IsGreatest {k | 2 * k ≤ maxLength} n) ↔ 0 ≤ maxLength ∨ Even maxLength)) :=
  ⟨fun _ => render_eq_iff, render_max_iff, rounds_down_iff⟩

/-- An odd length above zero is rounded down, and the name keeps its letters. -/
theorem render_by_name_sample : render "NVarChar" 101 0 0 = "NVarChar(50)" ∧
    lowered "NVarChar" ∈ wideTypes ∧ (101 : Int) ≠ -1 ∧
    ∃ n : Int, render "NVarChar" 101 0 0 = "NVarChar" ++ ("(" ++ toString n ++ ")") ∧
      IsGreatest {k | 2 * k ≤ 101} n := by
  obtain ⟨-, -, hd⟩ := render_by_name "NVarChar" 101 0 0
  have hw : lowered "NVarChar" ∈ wideTypes := by decide
  exact ⟨by decide, hw, by decide, (hd hw (by decide)).mpr (.inl (by decide))⟩

/-- An odd length below zero is rounded up. -/
theorem odd_negative_length : render "nvarchar" (-3) 0 0 = "nvarchar(-1)" ∧
    ¬ IsGreatest {k : Int | 2 * k ≤ -3} (-1) ∧ IsGreatest {k : Int | 2 * k ≤ -3} (-2) := by
  refine ⟨by decide, fun h => ?_, ?_⟩
  · exact absurd h.1 (by decide)
  · refine ⟨by decide, fun k hk => ?_⟩
    simp only [Set.mem_ofPred_eq] at hk
    omega

end CatalogDdl.DataType
