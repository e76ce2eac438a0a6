import SqlScript.BigQuery.CommaList

/-!
# String concatenation

BigQuery does not concatenate strings with `+`. An expression of a select list that starts like a
concatenation of strings is changed: `a + b + c` becomes `concat(concat(a, b), c)`.
-/

namespace SqlScript.BigQuery.Concat

/-- A select list. -/
def selectPattern : Pattern :=
  .ofWords ["select", "@a", "from"]

/-- Two operands of a sum with a plus on both ends. -/
def operandsPattern : Pattern :=
  .ofWords ["+", "@a", "+", "@b", "+"]

/-- How a concatenation of strings starts: with a string literal, a cast to `varchar`, an `isnull`
or `case` with a string literal, or anything before a plus and a string literal. -/
def stringPatterns : List Pattern := [
  .ofWords ["^", "'", "@a", "'", "+"],
  .ofWords ["^", "cast", "(", "@a", "as", "varchar", ")", "+"],
  .ofWords ["^", "isnull", "(", "@a", ",", "'", "@b", "'", ")", "+"],
  .ofWords ["^", "case", "@a", "then", "'", "@b", "'", "@c", "end", "+"],
  .ofWords ["^", "@a", "+", "'", "@b", "'"]]

/-- Whether one of the patterns is found in the text. -/
def findsAny (t : Text) : List Pattern → Except Error Bool
  | [] => .ok false
  | pattern :: patterns => do
    if (← findClause t pattern 0).isSome then return true
    findsAny t patterns

/-- Whether the expression is a concatenation of strings. -/
def isStringConcat (expression : Text) : Except Error Bool :=
  findsAny ('^' :: expression) stringPatterns

/-- Joins the first two operands of a sum that has a plus on both ends. -/
def joinStep (wrapped : Text) : Except Error (Option Text) := do
  match ← findClause wrapped operandsPattern 0 with
  | none => return none
  | some found =>
    let call := "+concat(".toList ++ capture found "a" ++ ", ".toList ++ capture found "b" ++
      ")+".toList
    return some (← wrapped.replaceSlice found.start found.stop call)

/-- The sum as nested calls. -/
def concatExpression (expression : Text) : Except Error Text := do
  let wrapped := '+' :: expression ++ ['+']
  let joined ← repeatSteps joinStep (stepLimit wrapped) wrapped
  joined.slice 1 (joined.byteSize - 1)

/-- An element of a select list with its concatenation changed. -/
def changedElement (element : Element) : Except Error Text := do
  let expression ←
    if ← isStringConcat element.expression then concatExpression element.expression
    else pure element.expression
  if element.suffix.isEmpty then return expression
  else return expression ++ " as ".toList ++ element.suffix

/-- Changes the next select list. -/
def step (state : Progress) : Except Error (Option Progress) := do
  match ← findClause state.sql selectPattern state.first with
  | none => return none
  | some found =>
    let select ← CommaList.parse .select (capture found "a")
    let items ← select.elements.mapM changedElement
    let inserted := "select ".toList ++ select.lead ++ CommaList.join items ++ select.tail ++
      " from".toList
    let sql ← state.sql.replaceSlice found.start found.stop inserted
    return some ⟨sql, found.startToken + 1⟩

/-- Changes all select lists. -/
def replaceConcats (sql : Text) : Except Error Text :=
  Progress.run step sql

end SqlScript.BigQuery.Concat
