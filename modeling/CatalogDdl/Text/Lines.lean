/-!
# Lines

A line ends at a line feed, and a carriage return right before that line feed belongs to the ending.
A last piece without a line feed is a line as it stands, unless it is empty.
-/
namespace CatalogDdl.Text

/-- A piece that a line feed closes, without the carriage return before that line feed. -/
def dropReturn (piece : List Char) : List Char :=
  if piece.getLast? = some '\r' then piece.dropLast else piece

@[simp] theorem dropReturn_nil : dropReturn [] = [] := rfl

@[simp] theorem dropReturn_append_return (piece : List Char) :
    dropReturn (piece ++ ['\r']) = piece := by
  simp [dropReturn]

def closeLines : List (List Char) → List (List Char)
  | [] => []
  | [last] => if last.isEmpty then [] else [last]
  | piece :: next :: rest => dropReturn piece :: closeLines (next :: rest)

@[simp] theorem closeLines_nil : closeLines [] = [] := rfl

@[simp] theorem closeLines_cons_cons (piece next : List Char) (rest : List (List Char)) :
    closeLines (piece :: next :: rest) = dropReturn piece :: closeLines (next :: rest) := rfl

/-- The lines of a text, without their endings. -/
def lines (s : List Char) : List (List Char) := closeLines (s.splitOn '\n')

@[simp] theorem lines_nil : lines [] = [] := by simp [lines, closeLines]

/-- The text of the given lines, with line feeds between them. -/
def unlines (ls : List (List Char)) : List Char := List.intercalate ['\n'] ls

end CatalogDdl.Text
