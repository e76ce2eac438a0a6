import SqlScript.Text.Basic

/-!
# Errors

Everything that can go wrong is one cause in `Error`, and `Error.message` is its wording. The last
three causes name what a run on a text could do wrong by itself: cut at an offset that is no place
of the text, ask for a span that is not there, or go on past the number of steps it was given.
-/

namespace SqlScript

/-- Why a search pattern is refused. -/
inductive PatternFault where
  /-- The pattern has no token. -/
  | empty
  /-- A `@(` is not closed. -/
  | unbalanced
  /-- No name follows the closing parenthesis of a constraint. -/
  | unnamed
  /-- A free variable stands first or last. -/
  | freeAtEdge
  /-- A free variable is followed by another variable. -/
  | freeBeforeVariable
deriving DecidableEq, Repr

/-- Why a session id is refused. -/
inductive SessionFault where
  /-- The id has this number of characters. -/
  | length (count : Nat)
  /-- The first character is no letter. -/
  | firstCharacter
  /-- Some character is neither letter nor numeral. -/
  | illegalCharacter
deriving DecidableEq, Repr

/-- The causes of failure. -/
inductive Error where
  /-- A search pattern has no meaning. -/
  | invalidPattern (pattern : Text) (fault : PatternFault)
  /-- The constraint of a variable is no regular expression. -/
  | invalidRegex (pattern : Text)
  /-- The text ends inside a literal that `mark` opened at the offset. -/
  | unterminatedLiteral (mark : Char) (offset : Nat)
  /-- No rules are known for the dialect. -/
  | unknownDialect (dialect : Text) (known : List Text)
  /-- A session id cannot be part of a table name. -/
  | invalidSessionId (id : Text) (fault : SessionFault)
  /-- A line of a rule table has too few columns. -/
  | malformedTable (line columns : Nat)
  /-- A rule table cannot be read. -/
  | unreadableTable (path : Text)
  /-- A cut at offsets that are no places of the text. -/
  | badSlice (start stop : Nat)
  /-- A span index past the end of the set. -/
  | noSpan (index : Nat)
  /-- A run did not end within its steps. -/
  | stepLimit
deriving DecidableEq, Repr

/-- The reason given for a refused pattern. -/
def PatternFault.reason : PatternFault → String
  | empty => "pattern is empty"
  | unbalanced => "unbalanced parentheses in regex variable"
  | unnamed => "regex variable has no name"
  | freeAtEdge => "pattern cannot start or end with a non-regex variable"
  | freeBeforeVariable => "a non-regex variable must be followed by a literal"

/-- The reason given for a refused session id. -/
def SessionFault.reason : SessionFault → String
  | length count => s!"has length {count}, should be 8"
  | firstCharacter => "does not start with a letter"
  | illegalCharacter => "contains an illegal character"

/-- The wording of an error. -/
def Error.message : Error → Text
  | invalidPattern pattern fault =>
    "Invalid search pattern '".toList ++ pattern ++ "': ".toList ++ fault.reason.toList
  | invalidRegex pattern =>
    "Invalid regular expression in search pattern '".toList ++ pattern ++ "'".toList
  | unterminatedLiteral mark offset =>
    "Unterminated ".toList ++ [mark] ++ s!" literal starting at offset {offset}".toList
  | unknownDialect dialect known =>
    "Don't know how to translate to '".toList ++ dialect ++
      "'. Valid target dialects are ".toList ++ ", ".toList.intercalate known
  | invalidSessionId id fault =>
    "Invalid session ID '".toList ++ id ++ "': ".toList ++ fault.reason.toList
  | malformedTable line columns =>
    s!"Malformed replacement table at line {line}: expected 3 columns, found {columns}".toList
  | unreadableTable path =>
    "Failed to read replacement table: ".toList ++ path
  | badSlice start stop =>
    s!"Offsets {start} and {stop} do not cut the text".toList
  | noSpan index => s!"There is no span {index}".toList
  | stepLimit => "The text did not settle within the step limit".toList

/-- The text between two byte offsets. -/
def Text.slice (t : Text) (start stop : Nat) : Except Error Text :=
  match t.slice? start stop with
  | some part => .ok part
  | none => .error (.badSlice start stop)

/-- The text from a byte offset on. -/
def Text.sliceFrom (t : Text) (start : Nat) : Except Error Text :=
  match t.dropBytes? start with
  | some part => .ok part
  | none => .error (.badSlice start t.byteSize)

/-- The text up to a byte offset. -/
def Text.sliceTo (t : Text) (stop : Nat) : Except Error Text :=
  match t.takeBytes? stop with
  | some part => .ok part
  | none => .error (.badSlice 0 stop)

end SqlScript
