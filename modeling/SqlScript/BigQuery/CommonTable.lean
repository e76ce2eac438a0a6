import SqlScript.BigQuery.CommaList

/-!
# Common table expressions

BigQuery has no column list on a common table expression. The columns become aliases in its select
list: `with c (x) as (select a from t)` becomes `with c as (select a as x from t)`.
-/

namespace SqlScript.BigQuery.CommonTable

/-- The first common table expression of a `with` clause. -/
def firstPattern : Pattern :=
  .ofWords ["with", "@a", "(", "@b", ")", "as", "(", "select", "@c", "from", "@d", ")"]

/-- A common table expression after another one. -/
def nextPattern : Pattern :=
  .ofWords [",", "@a", "(", "@b", ")", "as", "(", "select", "@c", "from", "@d", ")"]

/-- The common table expression with its columns as aliases. -/
def aliased (lead : Text) (found : PatternMatch) : Except Error Text := do
  let columns ← CommaList.parse .columns (capture found "b")
  let select ← CommaList.parse .select (capture found "c")
  let items := select.elements.zipWith
    (fun element column => element.expression ++ " as ".toList ++ column.expression)
    columns.elements
  return lead ++ capture found "a" ++ " as (select ".toList ++ select.lead ++
    CommaList.join items ++ select.tail ++ " from ".toList ++ capture found "d" ++ [')']

/-- Changes the next common table expression with a column list. -/
def step (pattern : Pattern) (lead : Text) (state : Progress) :
    Except Error (Option Progress) := do
  match ← findClause state.sql pattern state.first with
  | none => return none
  | some found =>
    let sql ← state.sql.replaceSlice found.start found.stop (← aliased lead found)
    return some ⟨sql, found.startToken + 1⟩

/-- Changes all common table expressions with column lists that the pattern finds. -/
def aliasColumns (pattern : Pattern) (lead : Text) (sql : Text) : Except Error Text :=
  Progress.run (step pattern lead) sql

end SqlScript.BigQuery.CommonTable
