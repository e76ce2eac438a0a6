import SqlScript.BigQuery.Basic
import SqlScript.Rule.Table

/-!
# Dialects

Scripts are written for one dialect, and a rule table says how to adapt them to others. A script for
BigQuery is prepared before its rules are applied. The dialect of the scripts themselves needs no
rules.
-/

namespace SqlScript

namespace Dialect

/-- The dialect scripts are written for. -/
def home : Text :=
  "sql server".toList

/-- The dialect with preparations of its own. -/
def bigQuery : Text :=
  "bigquery".toList

/-- The dialects a script can be adapted to. -/
def known (table : RuleTable) : List Text :=
  home :: table.dialects.filter (· != home)

end Dialect

/-- The script adapted to the dialect with the rules of the table. -/
def adapt (session : Session) (table : RuleTable) (dialect sql : Text) : Except Error Text :=
  match table.rulesFor? dialect with
  | some rules =>
    if dialect.eqFolded Dialect.bigQuery then do
      applyRules session rules (← BigQuery.prepare sql)
    else applyRules session rules sql
  | none =>
    if dialect == Dialect.home then do
      let _ ← session.values
      return sql
    else .error (.unknownDialect dialect (Dialect.known table))

end SqlScript
