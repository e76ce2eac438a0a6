import SqlScript.BigQuery.CommaList
import SqlScript.Text.Lowercase

/-!
# Lists of ids

Id columns hold numbers, so the numbers they are compared with lose their quotes:
`person_id in ('1', '2')` becomes `person_id in (1, 2)`. A list with any other element stays.
-/

namespace SqlScript.BigQuery.IdList

/-- A membership test. -/
def inPattern : Pattern :=
  .ofWords ["in", "(", "@i", ")"]

/-- Whether the token is a column whose name ends in `_id`. -/
def isIdColumn (token : Token) : Bool :=
  token.isIdentifier && "_id".toList.isSuffixOf token.text.lowercase

/-- Whether the text is a number between single quotes. -/
def isQuotedNumber (t : Text) : Bool :=
  match t with
  | '\'' :: rest =>
    rest.getLast? == some '\'' && 1 < rest.length && rest.dropLast.all Char.isDigit
  | _ => false

/-- Whether the list of the membership test is to lose its quotes. -/
def applies (sql : Text) (found : PatternMatch) : Except Error Bool := do
  let column := if found.startToken == 0 then none else (tokens sql)[found.startToken - 1]?
  if column.any isIdColumn then
    let list ← CommaList.parse .values (capture found "i")
    return list.elements.all fun element => isQuotedNumber element.expression
  else return false

/-- Looks at the next membership test. -/
def step (state : Progress) : Except Error (Option Progress) := do
  match ← findClause state.sql inPattern state.first with
  | none => return none
  | some found =>
    if ← applies state.sql found then
      let bare := (capture found "i").filter (· != '\'')
      let sql ← state.sql.replaceSlice found.start found.stop
        ("in (".toList ++ bare ++ [')'])
      return some ⟨sql, found.startToken + 1⟩
    else return some ⟨state.sql, found.startToken + 1⟩

/-- Takes the quotes off the numbers of all lists that are compared with id columns. -/
def unquoteNumbers (sql : Text) : Except Error Text :=
  Progress.run step sql

end SqlScript.BigQuery.IdList
