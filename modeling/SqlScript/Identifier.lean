import SqlScript.Session
import SqlScript.Regex.WordChar

/-!
# Names that are too long

Some dialects accept table names of at most thirty characters. `longNameWarnings` finds the names
of temporary tables, `#name`, and the names of tables that are created, dropped or truncated, and
warns about each one that is too long. The name of a temporary table leaves room for a session id
and a separator.
-/

namespace SqlScript

namespace Identifier

/-- The longest table name. -/
def tableLimit : Nat := 30

/-- The longest name of a temporary table, its `#` included. -/
def tempLimit : Nat := tableLimit - SessionId.size - 1

/-- A character of the name of a temporary table. -/
def isTempChar (c : Char) : Bool :=
  c.isAlphanum || c == '_'

/-- The names of temporary tables. -/
def tempNames : Text → List Text
  | [] => []
  | c :: t =>
    let run := t.takeWhile isTempChar
    if c == '#' && !run.isEmpty then (c :: run) :: tempNames (t.dropWhile isTempChar)
    else tempNames t
termination_by t => t.length
decreasing_by
  · have := (List.dropWhile_sublist (l := t) isTempChar).length_le
    simp only [List.length_cons]
    omega
  · simp

/-- A character of a table name. The long s and the Kelvin sign are an s and a k up to case. -/
def isTableChar (c : Char) : Bool :=
  isTempChar c || c == '\u017F' || c == '\u212A'

/-- What follows the characters of the class at the start of the text, if there is one. -/
def skipSome? (inClass : Char → Bool) : Text → Option Text
  | [] => none
  | c :: t => if inClass c then some (t.dropWhile inClass) else none

/-- The table name after a verb at the start of the text, and what follows the name. -/
def tableName? (t : Text) : Option (Text × Text) := do
  let rest ← (t.stripFolded? "create".toList).or
    ((t.stripFolded? "drop".toList).or (t.stripFolded? "truncate".toList))
  let rest ← skipSome? isBlank rest
  let rest ← Text.stripFolded? rest "table".toList
  let rest ← skipSome? (· == ' ') rest
  let after ← skipSome? isTableChar rest
  return (rest.takeWhile isTableChar, after)

/-- The names of the tables that are created, dropped or truncated. `before` is the character
before the text. A verb starts a word, and a name is not read again for a verb. -/
def tableNames (before : Option Char) (t : Text) : List Text :=
  match t with
  | [] => []
  | c :: rest =>
    match if before.any Regex.isWord then none else tableName? (c :: rest) with
    | some (name, after) =>
      if after.length < rest.length + 1 then name :: tableNames name.getLast? after
      else tableNames (some c) rest
    | none => tableNames (some c) rest
termination_by t.length

/-- The names longer than the limit, in order, each once. -/
def tooLong (limit : Nat) (names : List Text) : List Text :=
  Text.sortedSet (names.filter fun name => limit < name.byteSize)

/-- The warning about the name of a temporary table. -/
def tempWarning (name : Text) : Text :=
  "Temp table name '".toList ++ name ++
    s!"' is too long. Temp table names should be shorter than {tempLimit + 1} characters".toList

/-- The warning about the name of a table. -/
def tableWarning (name : Text) : Text :=
  "Table name '".toList ++ name ++
    s!"' is too long. Table names should be shorter than {tableLimit + 1} characters".toList

end Identifier

/-- The warnings about names that are too long, those of temporary tables first. -/
def longNameWarnings (sql : Text) : List Text :=
  (Identifier.tooLong Identifier.tempLimit (Identifier.tempNames sql)).map Identifier.tempWarning ++
    (Identifier.tooLong Identifier.tableLimit (Identifier.tableNames none sql)).map
      Identifier.tableWarning

end SqlScript
