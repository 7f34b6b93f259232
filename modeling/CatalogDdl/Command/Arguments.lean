import CatalogDdl.Catalog.Listing
import CatalogDdl.Catalog.Record
import CatalogDdl.Script.Basic

/-!
# Arguments of the command line

The first word names a command; options follow it. An option is given once. Its value is the next
argument or, after `=` or right behind a single letter, a part of the same one. An argument that
begins with a dash is never the value of the one before, a lone dash excepted. Arguments are read
from the left, so of two mistakes the first counts, and asking for help ends the reading where it
stands.
-/
namespace CatalogDdl.Command

inductive Parameter where
  | verbose
  | input
  | output
  | database
  | server
  | title
  | delimiter
  | separator
  | noTimestamp
  | skipInvalid
  | name
  | kind
  deriving DecidableEq, Repr

namespace Parameter

/-- The name after two dashes. -/
def long : Parameter → String
  | verbose => "verbose"
  | input => "input"
  | output => "output"
  | database => "database"
  | server => "server"
  | title => "title"
  | delimiter => "delimiter"
  | separator => "batch-separator"
  | noTimestamp => "no-timestamp"
  | skipInvalid => "skip-invalid-tables"
  | name => "name"
  | kind => "kind"

/-- The letter after one dash. -/
def letter? : Parameter → Option Char
  | verbose => some 'v'
  | input => some 'i'
  | output => some 'o'
  | database => some 'd'
  | name => some 'n'
  | kind => some 'k'
  | server | title | delimiter | separator | noTimestamp | skipInvalid => none

def takesValue : Parameter → Bool
  | verbose | noTimestamp | skipInvalid => false
  | input | output | database | server | title | delimiter | separator | name | kind => true

/-- A path is not empty, a delimiter is one character, and a kind is the name of a listing. -/
def accepts (parameter : Parameter) (value : String) : Bool :=
  match parameter with
  | input | output => value ≠ ""
  | delimiter => value.length = 1
  | kind => (Listing.ofName? value).isSome
  | verbose | database | server | title | separator | noTimestamp | skipInvalid | name => true

end Parameter

inductive Verb where
  | script
  | procedures
  | views
  | table
  | queries
  deriving DecidableEq, Repr

namespace Verb

def all : List Verb := [script, procedures, views, table, queries]

def word : Verb → String
  | script => "script"
  | procedures => "procedures"
  | views => "views"
  | table => "table"
  | queries => "queries"

def parameters : Verb → List Parameter
  | script =>
    [.verbose, .input, .output, .database, .server, .title, .delimiter, .separator,
      .noTimestamp, .skipInvalid]
  | procedures | views => [.verbose, .input, .output]
  | table => [.verbose, .input, .name]
  | queries => [.verbose, .kind]

end Verb

inductive Halt where
  /-- The arguments are not well formed. -/
  | refused
  /-- They ask for help or for the version. -/
  | asked
  deriving DecidableEq, Repr

/-- The parameters given so far, with their values. A flag has an empty value. -/
abbrev Given := List (Parameter × String)

/-- Gives a parameter a value that it accepts, unless it has one. -/
def assign (given : Given) (parameter : Parameter) (value : String) : Except Halt Given :=
  if (given.lookup parameter).isSome || !parameter.accepts value then .error .refused
  else .ok ((parameter, value) :: given)

/-- What can be given in one place, and what ends the reading there. -/
structure Grammar where
  parameters : List Parameter
  /-- Names after two dashes that ask for something. -/
  asking : List String
  /-- Letters after one dash that ask for something. -/
  askingLetters : List Char

def Grammar.top : Grammar := ⟨[.verbose], ["help", "version"], ['h', 'V']⟩

def Grammar.of (verb : Verb) : Grammar := ⟨verb.parameters, ["help"], ['h']⟩

/-- What is known after an argument, with the parameter whose value is still to come. -/
structure Progress where
  given : Given
  pending : Option Parameter := none

/-- Reads the letters after one dash. What stands behind the letter of a parameter with a value is
that value. -/
def readLetters (grammar : Grammar) (given : Given) : List Char → Except Halt Progress
  | [] => .ok { given }
  | c :: rest =>
    if grammar.askingLetters.contains c then .error .asked
    else match grammar.parameters.find? fun parameter => parameter.letter? = some c with
      | none => .error .refused
      | some parameter =>
        if parameter.takesValue then
          match rest with
          | [] => .ok { given, pending := some parameter }
          | '=' :: value => do return { given := ← assign given parameter (String.ofList value) }
          | value => do return { given := ← assign given parameter (String.ofList value) }
        else do
          let given ← assign given parameter ""
          readLetters grammar given rest

/-- Reads what follows two dashes: a name, and perhaps a value after the first `=`. -/
def readLong (grammar : Grammar) (given : Given) (text : List Char) : Except Halt Progress :=
  let name := String.ofList (text.takeWhile (· ≠ '='))
  let value? := match text.dropWhile (· ≠ '=') with
    | '=' :: value => some (String.ofList value)
    | _ => none
  if grammar.asking.contains name then
    if value?.isSome then .error .refused else .error .asked
  else match grammar.parameters.find? fun parameter => parameter.long = name with
    | none => .error .refused
    | some parameter =>
      match parameter.takesValue, value? with
      | true, some value => do return { given := ← assign given parameter value }
      | true, none => .ok { given, pending := some parameter }
      | false, none => do return { given := ← assign given parameter "" }
      | false, some _ => .error .refused

/-- Holds of an argument that begins with a dash and is not a lone dash. -/
def isOption (argument : String) : Bool :=
  match argument.toList with
  | '-' :: _ :: _ => true
  | _ => false

def readOption (grammar : Grammar) (given : Given) (argument : String) : Except Halt Progress :=
  match argument.toList with
  | '-' :: '-' :: name => readLong grammar given name
  | '-' :: letters => readLetters grammar given letters
  | _ => .error .refused

/-- Reads the options of a command. Two dashes alone end them, and nothing may follow. -/
def readOptions (grammar : Grammar) (given : Given) : List String → Except Halt Given
  | [] => .ok given
  | argument :: rest =>
    if argument = "--" then if rest.isEmpty then .ok given else .error .refused
    else if !isOption argument then .error .refused
    else do
      let progress ← readOption grammar given argument
      match progress.pending with
      | none => readOptions grammar progress.given rest
      | some parameter =>
        match rest with
        | [] => .error .refused
        | value :: rest =>
          if isOption value then .error .refused
          else do
            let given ← assign progress.given parameter value
            readOptions grammar given rest

end Command

inductive Command where
  /-- Writes the script of a dump folder. -/
  | script (input : String) (output : Option String) (settings : Settings) (isStamped : Bool)
  /-- Writes the script of the routines of one kind. -/
  | routines (kind : Routine.Kind) (input : String) (output : Option String)
  /-- Prints the statements of one table. -/
  | table (input name : String)
  /-- Prints one query, or all of them. -/
  | queries (listing : Option Listing)
  deriving DecidableEq, Repr

namespace Command

/-- The value of a parameter that has to be given. -/
def require (given : Given) (parameter : Parameter) : Except Halt String :=
  match given.lookup parameter with
  | some value => .ok value
  | none => .error .refused

def settings (given : Given) : Settings where
  delimiter := ((given.lookup .delimiter).bind (·.toList.head?)).getD Settings.usual.delimiter
  separator := (given.lookup .separator).getD Settings.usual.separator
  title := (given.lookup .title).getD Settings.usual.title
  database := given.lookup .database
  server := given.lookup .server
  onDefect := if (given.lookup .skipInvalid).isSome then .skip else .refuse

def ofGiven (verb : Verb) (given : Given) : Except Halt Command :=
  match verb with
  | .script => do
    let input ← require given .input
    return .script input (given.lookup .output) (settings given) (given.lookup .noTimestamp).isNone
  | .procedures => do return .routines .procedure (← require given .input) (given.lookup .output)
  | .views => do return .routines .view (← require given .input) (given.lookup .output)
  | .table => do return .table (← require given .input) (← require given .name)
  | .queries => .ok (.queries ((given.lookup .kind).bind Listing.ofName?))

def readVerb (word : String) (rest : List String) : Except Halt Command :=
  match Verb.all.find? fun verb => verb.word = word with
  | some verb => do
    let given ← readOptions (.of verb) [] rest
    ofGiven verb given
  | none =>
    if word = "help" then
      match rest with
      | [] => .error .asked
      | [topic] =>
        .error (if topic = "help" || Verb.all.any (·.word = topic) then .asked else .refused)
      | _ => .error .refused
    else .error .refused

def readTop (given : Given) : List String → Except Halt Command
  | [] => .error .refused
  | argument :: rest =>
    if argument = "--" then .error .refused
    else if isOption argument then do
      let progress ← readOption .top given argument
      readTop progress.given rest
    else readVerb argument rest

def ofArguments (arguments : List String) : Except Halt Command := readTop [] arguments

end Command
end CatalogDdl
