import CatalogDdl.Text.Blank
import CatalogDdl.Text.Letters
import CatalogDdl.Text.Lines

/-!
# Row counts

A printed result set may be followed by a line such as `(3 rows affected)`. `isRowCount` tells such
a line from data, and `body` is a printed text without them.
-/
namespace CatalogDdl.ResultSet
open Text

/-- What stands between an opening parenthesis at the start and a closing one at the end. -/
def inParentheses? : List Char → Option (List Char)
  | '(' :: rest => if rest.getLast? = some ')' then some rest.dropLast else none
  | _ => none

/-- Digits, `row` or `rows`, and `affected`, each a word of its own. -/
def isCountPhrase : List (List Char) → Bool
  | [count, noun, marker] =>
    count.all Char.isDigit && (sameLetters noun ['r', 'o', 'w'] || sameLetters noun ['r',
      'o', 'w', 's'])
      && sameLetters marker ['a', 'f', 'f', 'e', 'c', 't', 'e', 'd']
  | _ => false

/-- Holds of a line that is a row count and nothing else, apart from blanks around and inside it. -/
def isRowCount (line : List Char) : Bool :=
  match inParentheses? (trim line) with
  | some phrase => isCountPhrase (words phrase)
  | none => false

@[simp] theorem isRowCount_nil : isRowCount [] = false := rfl

/-- A printed text of many lines without its row counts and without the blanks around it. -/
def body (text : String) : String :=
  String.ofList (trim (unlines ((lines text.toList).filter (!isRowCount ·))))

end CatalogDdl.ResultSet
