/-!
# Quoted names

A name is written in brackets with each closing bracket inside it doubled, and a literal in single
quotes with each quote doubled. The readers undo this: they stop at the first mark that stands
alone.
-/
namespace CatalogDdl.Text

/-- The text with every `mark` written twice. -/
def doubled (mark : Char) : List Char → List Char
  | [] => []
  | c :: rest => if c = mark then mark :: mark :: doubled mark rest else c :: doubled mark rest

@[simp] theorem doubled_nil (mark : Char) : doubled mark [] = [] := rfl

@[simp] theorem doubled_cons (mark c : Char) (rest : List Char) :
    doubled mark (c :: rest) =
      if c = mark then mark :: mark :: doubled mark rest else c :: doubled mark rest := rfl

/-- A name in brackets. -/
def identifier (name : String) : String :=
  String.ofList ('[' :: (doubled ']' name.toList ++ [']']))

@[simp] theorem toList_identifier (name : String) :
    (identifier name).toList = '[' :: (doubled ']' name.toList ++ [']']) := by simp [identifier]

/-- A text in single quotes. -/
def literal (text : String) : String :=
  String.ofList ('\'' :: (doubled '\'' text.toList ++ ['\'']))

@[simp] theorem toList_literal (text : String) :
    (literal text).toList = '\'' :: (doubled '\'' text.toList ++ ['\'']) := by simp [literal]

def identifierList (names : List String) : String := ", ".intercalate (names.map identifier)

/-- Reads up to the first `mark` that stands alone, a doubled one being one character of the text.
The rest begins after the lone mark; without such a mark nothing is read. -/
def readDoubled (mark : Char) : List Char → Option (List Char × List Char)
  | [] => none
  | [c] => if c = mark then some ([], []) else none
  | c :: d :: rest =>
    if c ≠ mark then (readDoubled mark (d :: rest)).map fun (text, after) => (c :: text, after)
    else if d = mark then (readDoubled mark rest).map fun (text, after) => (mark :: text, after)
    else some ([], d :: rest)

def readIdentifier : List Char → Option (List Char × List Char)
  | '[' :: rest => readDoubled ']' rest
  | _ => none

def readLiteral : List Char → Option (List Char × List Char)
  | '\'' :: rest => readDoubled '\'' rest
  | _ => none

end CatalogDdl.Text
