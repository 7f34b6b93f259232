/-!
# Blank characters

A character is blank if it has the Unicode property `White_Space`. `trim` takes the blanks off both
ends of a text and `words` lists the runs of other characters between them. Texts are lists of
characters here and in the other modules of this folder.
-/
namespace CatalogDdl.Text

/-- The twenty-five characters with the property `White_Space`, in order. -/
def blanks : List Char :=
  ['\t', '\n', '\x0b', '\x0c', '\r', ' ', '\u0085', '\u00a0', '\u1680',
   '\u2000', '\u2001', '\u2002', '\u2003', '\u2004', '\u2005', '\u2006', '\u2007', '\u2008',
   '\u2009', '\u200a',
   '\u2028', '\u2029', '\u202f', '\u205f', '\u3000']

def isBlank (c : Char) : Bool := blanks.contains c

theorem isBlank_iff (c : Char) : isBlank c = true ↔ c ∈ blanks := by simp [isBlank]

def trimStart (s : List Char) : List Char := s.dropWhile isBlank

def trimEnd (s : List Char) : List Char := (s.reverse.dropWhile isBlank).reverse

/-- The text without the blanks at either end. -/
def trim (s : List Char) : List Char := trimEnd (trimStart s)

@[simp] theorem trim_nil : trim [] = [] := rfl

/-- The maximal runs of characters that are not blank. -/
def words (s : List Char) : List (List Char) := (s.splitOnP isBlank).filter (!·.isEmpty)

end CatalogDdl.Text
