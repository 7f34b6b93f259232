import CatalogDdl.Text.Blank
import CatalogDdl.Text.Numeral

/-!
# Decimal numerals

The decimal numeral of a number is read back as that number.
-/
namespace CatalogDdl.Text

theorem isBlank_of_isDigit {c : Char} (h : c.isDigit = true) : isBlank c = false := by
  have hd : blanks.all (!·.isDigit) = true := by decide
  cases hb : isBlank c with
  | false => rfl
  | true =>
    have hc := List.all_eq_true.mp hd c ((isBlank_iff c).mp hb)
    rw [h] at hc
    contradiction

/-- The numeral of a negative number has a sign in front. -/
theorem toList_toString (n : Int) : (toString n).toList =
    if 0 ≤ n then Nat.toDigits 10 n.toNat else '-' :: Nat.toDigits 10 (-n).toNat := by
  rw [Int.toString_eq_repr, Int.repr_eq_if]
  split <;> simp

theorem isDigit_or_sign {n : Int} {c : Char} (hc : c ∈ (toString n).toList) :
    c.isDigit = true ∨ c = '-' := by
  rw [toList_toString] at hc
  split at hc
  · exact .inl (Nat.isDigit_of_mem_toDigits (by omega) (by omega) hc)
  · rcases List.mem_cons.mp hc with rfl | hc
    · exact .inr rfl
    · exact .inl (Nat.isDigit_of_mem_toDigits (by omega) (by omega) hc)

@[simp] theorem natural?_toDigits (n : Nat) : natural? (Nat.toDigits 10 n) = some n := by
  have hd : (Nat.toDigits 10 n).all Char.isDigit = true :=
    List.all_eq_true.mpr fun c hc => Nat.isDigit_of_mem_toDigits (by omega) (by omega) hc
  simp [natural?, Nat.toDigits_ne_nil, hd, Nat.ofDigitChars_ten_toDigits]

/-- Digits without a sign are read as they stand. -/
theorem integer?_of_digits {digits : List Char} (h : ∀ c ∈ digits, c.isDigit = true) :
    integer? digits = (natural? digits).map fun n : Nat => (n : Int) := by
  have hs {c : Char} (hc : c.isDigit = false) (rest : List Char) : digits ≠ c :: rest := by
    rintro rfl
    rw [h c List.mem_cons_self] at hc
    contradiction
  rw [integer?]
  · cases natural? digits <;> rfl
  · exact hs (by decide)
  · exact hs (by decide)

theorem integer?_toDigits (n : Nat) : integer? (Nat.toDigits 10 n) = some (n : Int) := by
  rw [integer?_of_digits fun c hc => Nat.isDigit_of_mem_toDigits (by omega) (by omega) hc,
    natural?_toDigits]
  rfl

theorem integer?_toString (n : Int) : integer? (toString n).toList = some n := by
  rw [toList_toString]
  split
  · rw [integer?_toDigits, Int.toNat_of_nonneg ‹_›]
  · have hn : ((-n).toNat : Int) = -n := Int.toNat_of_nonneg (by omega)
    simp [integer?, hn]

theorem int32?_toString {n : Int} (h : FitsInt32 n) : int32? (toString n).toList = some n := by
  rw [int32?, integer?_toString]
  simp [h]

end CatalogDdl.Text
