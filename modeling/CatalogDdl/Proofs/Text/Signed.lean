import CatalogDdl.Proofs.Text.Numeral
import Mathlib.Data.List.Induction
import Mathlib.Data.Nat.Digits.Defs

/-!
# Numbers digit by digit

A number is written as a sign or none and one or more digits, each of which counts by its place. So
zeros in front of the digits count for nothing, however many there are. A further digit never leads
back toward zero, so a number of thirty-two bits is put together within its range, and digits that
lead out of the range on the way make none.
-/
namespace CatalogDdl.Text

/-- What a digit stands for on its own. -/
def digitValue (c : Char) : Nat := c.toNat - '0'.toNat

/-- What digits stand for together. The last one counts ones. -/
def placeValue (digits : List Char) : Nat := Nat.ofDigits 10 (digits.reverse.map digitValue)

@[simp] theorem placeValue_nil : placeValue [] = 0 := rfl

@[simp] theorem placeValue_concat (digits : List Char) (c : Char) :
    placeValue (digits ++ [c]) = 10 * placeValue digits + digitValue c := by
  simp [placeValue, Nat.ofDigits_cons, Nat.add_comm]

@[simp] theorem placeValue_zeros_append (zeros : Nat) (digits : List Char) :
    placeValue (List.replicate zeros '0' ++ digits) = placeValue digits := by
  have hz : digitValue '0' = 0 := by decide
  simp [placeValue, hz]

theorem ofDigitChars_eq (digits : List Char) :
    Nat.ofDigitChars 10 digits 0 = placeValue digits := by
  induction digits using List.reverseRecOn with
  | nil => rfl
  | append_singleton digits c ih =>
    rw [Nat.ofDigitChars_append, ih, placeValue_concat, Nat.ofDigitChars_cons,
      Nat.ofDigitChars_nil, digitValue]

theorem natural?_eq_some_iff {digits : List Char} {n : Nat} : natural? digits = some n ↔
    digits ≠ [] ∧ (∀ c ∈ digits, c.isDigit = true) ∧ placeValue digits = n := by
  simp [natural?, ofDigitChars_eq, and_assoc]

/-- What stands in front of the digits of a number. -/
inductive Sign where
  | unsigned
  | plus
  | minus
  deriving DecidableEq, Repr

namespace Sign

def text : Sign → List Char
  | unsigned => []
  | plus => ['+']
  | minus => ['-']

/-- The number on the side of the sign that is so far from zero. -/
def apply : Sign → Nat → Int
  | unsigned, n | plus, n => n
  | minus, n => -(n : Int)

variable (sign : Sign)

@[simp] theorem apply_zero : sign.apply 0 = 0 := by cases sign <;> rfl

theorem apply_mul (m n : Nat) : sign.apply (m * n) = m * sign.apply n := by
  cases sign <;> simp [apply]

theorem apply_add (m n : Nat) : sign.apply (m + n) = sign.apply m + sign.apply n := by
  cases sign <;> simp only [apply] <;> omega

/-- What is nearer to zero on the same side fits as well. -/
theorem fitsInt32_of_le {sign : Sign} {m n : Nat} (hm : FitsInt32 (sign.apply m)) (h : n ≤ m) :
    FitsInt32 (sign.apply n) := by
  cases sign <;> simp only [apply, FitsInt32] at hm ⊢ <;> omega

end Sign

structure Numeral where
  sign : Sign
  digits : List Char
  nonempty : digits ≠ []
  decimal : ∀ c ∈ digits, c.isDigit = true

namespace Numeral

def text (numeral : Numeral) : List Char := numeral.sign.text ++ numeral.digits

def value (numeral : Numeral) : Int := numeral.sign.apply (placeValue numeral.digits)

/-- The numeral with so many zeros in front of its digits. -/
def padded (numeral : Numeral) (zeros : Nat) : Numeral where
  sign := numeral.sign
  digits := List.replicate zeros '0' ++ numeral.digits
  nonempty := List.append_ne_nil_of_right_ne_nil _ numeral.nonempty
  decimal := by
    rw [List.forall_mem_append]
    refine ⟨fun c hc => ?_, numeral.decimal⟩
    rw [List.eq_of_mem_replicate hc]
    decide

@[simp] theorem value_padded (numeral : Numeral) (zeros : Nat) :
    (numeral.padded zeros).value = numeral.value := by
  simp [value, padded]

end Numeral

/-- What is behind a sign is read as digits, and so is all of a text without one. -/
theorem exists_sign (s : List Char) : ∃ (sign : Sign) (digits : List Char),
    sign.text ++ digits = s ∧ integer? s = (natural? digits).map sign.apply := by
  fun_cases integer? s with
  | case1 digits => exact ⟨.plus, digits, rfl, by cases natural? digits <;> rfl⟩
  | case2 digits => exact ⟨.minus, digits, rfl, by cases natural? digits <;> rfl⟩
  | case3 => exact ⟨.unsigned, s, rfl, by cases natural? s <;> rfl⟩

/-- A numeral is read as its value. -/
theorem integer?_text (numeral : Numeral) : integer? numeral.text = some numeral.value := by
  obtain ⟨sign, digits, hn, hd⟩ := numeral
  have hv : natural? digits = some (placeValue digits) := natural?_eq_some_iff.mpr ⟨hn, hd, rfl⟩
  cases sign with
  | unsigned =>
    change integer? digits = _
    rw [integer?_of_digits hd, hv]
    rfl
  | plus =>
    change integer? ('+' :: digits) = _
    simp [integer?, hv, Numeral.value, Sign.apply]
  | minus =>
    change integer? ('-' :: digits) = _
    simp [integer?, hv, Numeral.value, Sign.apply]

/-- A number is read from its numerals and from no other text. -/
theorem integer?_eq_some_iff {s : List Char} {n : Int} :
    integer? s = some n ↔ ∃ numeral : Numeral, numeral.text = s ∧ numeral.value = n := by
  constructor
  · intro h
    obtain ⟨sign, digits, rfl, hs⟩ := exists_sign s
    rw [hs] at h
    obtain ⟨m, hm, rfl⟩ := Option.map_eq_some_iff.mp h
    obtain ⟨hn, hd, rfl⟩ := natural?_eq_some_iff.mp hm
    exact ⟨⟨sign, digits, hn, hd⟩, rfl, rfl⟩
  · rintro ⟨numeral, rfl, rfl⟩
    exact integer?_text numeral

/-- The number itself, if it is in the range. -/
def fit? (n : Int) : Option Int := if FitsInt32 n then some n else none

theorem fit?_eq_some_iff {m n : Int} : fit? m = some n ↔ m = n ∧ FitsInt32 n := by
  rw [fit?]
  split
  · next hf =>
    rw [Option.some.injEq]
    exact ⟨fun h => ⟨h, h ▸ hf⟩, And.left⟩
  · next hf =>
    refine iff_of_false (fun h => nomatch h) ?_
    rintro ⟨rfl, hn⟩
    exact hf hn

theorem int32?_eq_bind (s : List Char) : int32? s = (integer? s).bind fit? := by
  cases h : integer? s <;> simp [int32?, h, fit?, Option.filter_some]

theorem int32?_text (numeral : Numeral) : int32? numeral.text = fit? numeral.value := by
  rw [int32?_eq_bind, integer?_text, Option.bind_some]

theorem int32?_eq_some_iff {s : List Char} {n : Int} :
    int32? s = some n ↔ ∃ numeral : Numeral, numeral.text = s ∧ numeral.value = n ∧
    FitsInt32 n := by
  simp only [int32?_eq_bind, Option.bind_eq_some_iff, integer?_eq_some_iff, fit?_eq_some_iff]
  constructor
  · rintro ⟨_, ⟨numeral, ht, hv⟩, rfl, hf⟩
    exact ⟨numeral, ht, hv, hf⟩
  · rintro ⟨numeral, ht, rfl, hf⟩
    exact ⟨_, ⟨numeral, ht, rfl⟩, rfl, hf⟩

theorem int32?_eq_none_iff {s : List Char} :
    int32? s = none ↔ ∀ numeral : Numeral, numeral.text = s → ¬ FitsInt32 numeral.value := by
  simp only [Option.eq_none_iff_forall_ne_some, ne_eq, int32?_eq_some_iff, not_exists, not_and]
  exact ⟨fun h numeral ht => h _ numeral ht rfl, fun h _ numeral ht hv => hv ▸ h numeral ht⟩

/-- A number with one more digit behind it, if neither the product nor the sum leaves the range. -/
def Sign.push? (sign : Sign) (n : Int) (c : Char) : Option Int :=
  (fit? (10 * n)).bind fun tens => fit? (tens + sign.apply (digitValue c))

/-- The number that the digits make one after the other, if none of them leads out of the range. -/
def Numeral.word? (numeral : Numeral) : Option Int := numeral.digits.foldlM numeral.sign.push? 0

/-- One more digit is in the range if the number with it is. -/
theorem Sign.bind_push? (sign : Sign) (n : Nat) (c : Char) :
    (fit? (sign.apply n)).bind (sign.push? · c) = fit? (sign.apply (10 * n + digitValue c)) := by
  have hs : 10 * sign.apply n + sign.apply (digitValue c) = sign.apply (10 * n + digitValue c) := by
    rw [sign.apply_add, sign.apply_mul]
    rfl
  ext m
  simp only [push?, Option.bind_eq_some_iff, fit?_eq_some_iff]
  constructor
  · rintro ⟨_, ⟨rfl, -⟩, _, ⟨rfl, -⟩, rfl, hf⟩
    exact ⟨hs.symm, hf⟩
  · rintro ⟨rfl, hf⟩
    -- both numbers on the way are nearer to zero than the last one
    have hn : FitsInt32 (sign.apply n) := fitsInt32_of_le hf (by omega)
    have ht : FitsInt32 (10 * sign.apply n) :=
        sign.apply_mul 10 n ▸ fitsInt32_of_le hf (Nat.le_add_right _ _)
    exact ⟨_, ⟨rfl, hn⟩, _, ⟨rfl, ht⟩, hs, hf⟩

/-- Read digit by digit, a number leaves the range on the way if it lies outside. -/
theorem Sign.foldlM_push? (sign : Sign) (digits : List Char) :
    digits.foldlM sign.push? 0 = fit? (sign.apply (placeValue digits)) := by
  induction digits using List.reverseRecOn with
  | nil =>
    rw [placeValue_nil, apply_zero]
    rfl
  | append_singleton digits c ih =>
    rw [List.foldlM_append, ih, placeValue_concat, ← sign.bind_push?]
    simp

/-- Digit by digit there is a number if and only if the whole one is in the range, and then it is
that one. -/
theorem Numeral.word?_eq (numeral : Numeral) : numeral.word? = fit? numeral.value :=
  numeral.sign.foldlM_push? numeral.digits

end CatalogDdl.Text
