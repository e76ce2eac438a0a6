import SqlScript.BigQuery.CommonTable
import SqlScript.BigQuery.Concat
import SqlScript.BigQuery.IdList
import SqlScript.BigQuery.Position

/-!
# BigQuery

What a script needs for BigQuery before its rules are applied, where a single rule cannot say it:
small letters outside string literals, common table expressions without column lists, `group by` and
`order by` lists by position, `concat` for strings, and numbers without quotes for id columns.
-/

namespace SqlScript.BigQuery

/-- The text from an offset on, with the tokens outside quoted literals in small letters. -/
def lowerTokens (sql : Text) (copied : Nat) : List Token → Except Error Text
  | [] => sql.sliceFrom copied
  | token :: later =>
    if token.inQuotes then lowerTokens sql copied later
    else do
      let gap ← sql.slice copied token.start
      let rest ← lowerTokens sql token.stop later
      return gap ++ token.text.lowercase ++ rest

/-- The text with everything outside quoted literals and comments in small letters. -/
def lowerCase (sql : Text) : Except Error Text := do
  lowerTokens sql 0 (← tokenize sql)

/-- The script changed for BigQuery. -/
def prepare (sql : Text) : Except Error Text := do
  let sql ← lowerCase sql
  let sql ← CommonTable.aliasColumns CommonTable.firstPattern "with ".toList sql
  let sql ← CommonTable.aliasColumns CommonTable.nextPattern ", ".toList sql
  let sql ← Position.convert Position.groupByPattern .groupBy sql
  let sql ← Position.convert Position.nestedGroupByPattern .groupBy sql
  let sql ← Position.convert Position.orderByPattern .orderBy sql
  let sql ← Concat.replaceConcats sql
  IdList.unquoteNumbers sql

end SqlScript.BigQuery
