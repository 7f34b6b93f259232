/-!
# Numerals

A whole number is written as an optional sign and at least one ASCII digit. `int32?` reads one and
keeps it only if it fits in thirty-two bits.
-/
namespace CatalogDdl.Text

/-- The value of a text of one or more ASCII digits. -/
def natural? (digits : List Char) : Option Nat :=
  if !digits.isEmpty && digits.all Char.isDigit then some (Nat.ofDigitChars 10 digits 0) else none

@[simp] theorem natural?_nil : natural? [] = none := rfl

/-- The value of digits with at most one sign before them. -/
def integer? : List Char → Option Int
  | '+' :: digits => (natural? digits).map fun n => (n : Int)
  | '-' :: digits => (natural? digits).map fun n => -(n : Int)
  | digits => (natural? digits).map fun n => (n : Int)

/-- The numbers of a signed word of thirty-two bits. -/
def FitsInt32 (n : Int) : Prop := -2147483648 ≤ n ∧ n ≤ 2147483647

instance (n : Int) : Decidable (FitsInt32 n) := inferInstanceAs (Decidable (_ ∧ _))

/-- Reads a number of thirty-two bits; a number outside that range is refused, not wrapped. -/
def int32? (s : List Char) : Option Int := (integer? s).filter fun n => decide (FitsInt32 n)

end CatalogDdl.Text
