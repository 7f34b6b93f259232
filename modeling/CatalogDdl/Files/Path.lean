/-!
# Paths

A path is a text of steps with slashes between them. An empty step and the step `.` stay where
they are, and the step `..` goes up. Paths and steps have a greatest length, counted in bytes.
-/
namespace CatalogDdl

/-- Why a path cannot be followed, or why what stands at its end may not be looked at. -/
inductive PathFault where
  | notFound
  | notFolder
  | denied
  /-- There are too many links on the way. -/
  | looped
  | tooLong
  /-- There is a character of number zero in the path. -/
  | invalid
  deriving DecidableEq, Repr

namespace Path

def steps (path : String) : List String := (path.toList.splitOn '/').map String.ofList

/-- A path that begins with a slash does not start from the folder at hand. -/
def isAbsolute (path : String) : Bool := path.toList.head? = some '/'

/-- The path of `path` as seen from the folder `base`. -/
def join (base path : String) : String :=
  if isAbsolute path || base = "" then path
  else if base.toList.getLast? = some '/' then base ++ path
  else base ++ "/" ++ path

def isIdle (step : String) : Bool := step = "" || step = "."

/-- Paths of more than 4095 bytes are not followed, steps that go nowhere included. -/
def check (path : String) : Except PathFault Unit :=
  if path.toList.contains '\x00' then .error .invalid
  else if path = "" then .error .notFound
  else if 4095 < path.utf8ByteSize then .error .tooLong
  else .ok ()

/-- The steps without those at their end that go nowhere. -/
def trimIdle (steps : List String) : List String := (steps.reverse.dropWhile isIdle).reverse

/-- The steps of the path without its last one, to which steps that go nowhere do not count. -/
def above (path : String) : List String := trimIdle (trimIdle (steps path)).dropLast

/-- The path without empty steps and without any steps `.` that it begins with. A relative path
whose first other step is empty has no such form. -/
def tidy? (path : String) : Option String :=
  if isAbsolute path then some ("/" ++ "/".intercalate ((steps path).filter (· ≠ "")))
  else match (steps path).dropWhile (· = ".") with
    | "" :: _ => none
    | rest => some ("/".intercalate (rest.filter (· ≠ "")))

/-- Holds of the steps that are looked up among the entries of a folder, because characters in
them have a meaning in patterns. -/
def isPattern (step : String) : Bool := step.toList.any ['?', '*', '[', ']'].contains

/-- The folders whose entries are searched for the next step of a tidy path. -/
def searched (path : String) : List String :=
  ((steps path).zipIdx.filter fun (step, _) => isPattern step).map fun (_, i) =>
    match (steps path).take i with
    | [] => "."
    | [""] => "/"
    | before => "/".intercalate before

end Path
end CatalogDdl
