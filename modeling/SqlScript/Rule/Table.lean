import SqlScript.Rule.Basic

/-!
# Rule tables

A rule table holds a list of rules for each dialect. It is written as lines of comma-separated
columns, `dialect,search,replace`, below a header line. A column may stand between double quotes;
`\"` and `\n` stand for a quote and a line break. Further columns are left out of account, and a
line without a search pattern gives no rule.
-/

namespace SqlScript

/-- The rules of each dialect, in the order of the dialects' names. -/
abbrev RuleTable := List (Text × List Rule)

namespace RuleTable

/-- The table with one more rule for the dialect, after its other rules. -/
def add (dialect : Text) (rule : Rule) : RuleTable → RuleTable
  | [] => [(dialect, [rule])]
  | (other, rules) :: table =>
    if dialect == other then (other, rules ++ [rule]) :: table
    else if dialect.precedes other then (dialect, [rule]) :: (other, rules) :: table
    else (other, rules) :: add dialect rule table

/-- The rules of a dialect. -/
def rulesFor? (table : RuleTable) (dialect : Text) : Option (List Rule) :=
  table.lookup dialect

/-- The dialects with rules, in order. -/
def dialects (table : RuleTable) : List Text :=
  table.map (·.1)

/-! ## Reading -/

/-- The lines of a text, without their ends. -/
def lines (t : Text) : List Text :=
  let pieces := t.fields '\n'
  let pieces := if pieces.getLast? == some [] then pieces.dropLast else pieces
  pieces.map fun line => (line.reverse.dropWhile (· == '\r')).reverse

/-- The columns of a line as they are written. A comma inside double quotes or after a backslash
divides none. -/
def rawColumns (inQuotes escaped : Bool) : Text → List Text
  | [] => [[]]
  | c :: t =>
    let inQuotes := if c == '"' && !escaped then !inQuotes else inQuotes
    let columns := rawColumns inQuotes (c == '\\' && !escaped) t
    if c == ',' && !inQuotes && !escaped then [] :: columns
    else
      match columns with
      | column :: columns => (c :: column) :: columns
      | [] => [[c]]

/-- The text that a column stands for. -/
def decodeColumn (column : Text) : Text :=
  let inner : Text :=
    match column with
    | '"' :: t => if t.getLast? == some '"' then t.dropLast else column
    | _ => column
  Text.replaceAll (inner.replaceAll ['\\', '"'] ['"']) ['\\', 'n'] ['\n']

/-- The columns of a line. -/
def columns (line : Text) : List Text :=
  (rawColumns false false line).map decodeColumn

/-- The table after the line with the given number. -/
def addLine (table : RuleTable) (line : Text) (number : Nat) : Except Error RuleTable :=
  if line.trim.isEmpty then .ok table
  else
    match columns line with
    | dialect :: search :: replace :: _ =>
      .ok (if search.trim.isEmpty then table else table.add dialect ⟨search, replace⟩)
    | found => .error (.malformedTable number found.length)

/-- The table of a text. -/
def parse (t : Text) : Except Error RuleTable :=
  ((lines t).zipIdx 1).tail.foldlM (fun table (line, number) => table.addLine line number) []

/-- The table of a file with the given content, none if it cannot be read. -/
def ofFile (path : Text) (content : Option ByteArray) : Except Error RuleTable :=
  match content.bind String.fromUTF8? with
  | some text => parse text.toList
  | none => .error (.unreadableTable path)

end RuleTable

end SqlScript
