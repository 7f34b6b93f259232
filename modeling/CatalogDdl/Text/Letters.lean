/-!
# Letters without case

Only the twenty-six ASCII letters have a case here; every other character is like itself alone.
-/
namespace CatalogDdl.Text

/-- The two texts differ at most in the case of ASCII letters. -/
def sameLetters (s t : List Char) : Bool := s.map Char.toLower == t.map Char.toLower

theorem sameLetters_iff (s t : List Char) :
    sameLetters s t = true ↔ s.map Char.toLower = t.map Char.toLower := by simp [sameLetters]

@[simp] theorem sameLetters_self (s : List Char) : sameLetters s s = true := by simp [sameLetters]

/-- Holds of the word `NULL`, by which a printed value shows that it is none. -/
def isNullWord (value : List Char) : Bool := sameLetters value ['n', 'u', 'l', 'l']

/-- Holds of a value that stands for none: an empty one, or the word `NULL`. -/
def isAbsent (value : String) : Bool := value.isEmpty || isNullWord value.toList

/-- The truth value of `1`, `0`, `true` or `false`, the words in any case. -/
def truth? (value : List Char) : Option Bool :=
  if value = ['1'] || sameLetters value ['t', 'r', 'u', 'e'] then some true
  else if value = ['0'] || sameLetters value ['f', 'a', 'l', 's', 'e'] then some false
  else none

end CatalogDdl.Text
