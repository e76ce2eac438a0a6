import SqlScript.Pattern.Search
import SqlScript.Steps

/-!
# Clauses

The constructs that BigQuery wants changed are found with the same patterns that rules use. The text
is read as it is, an open literal included. To match a whole text, `^` and `$` are put around it.
-/

namespace SqlScript.BigQuery

/-- The first match of a pattern in a text, at token `first` or later. -/
def findClause (sql : Text) (pattern : Pattern) (first : Nat) :
    Except Error (Option PatternMatch) :=
  search sql (tokens sql) pattern first

/-- The match of a pattern that starts with `^` and ends with `$` in the whole text. -/
def findWhole (t : Text) (pattern : Pattern) : Except Error (Option PatternMatch) :=
  findClause ('^' :: t ++ ['$']) pattern 0

/-- What the variable took, blanks around it aside. -/
def capture (found : PatternMatch) (name : String) : Text :=
  ((found.bindings.get? name.toList).getD []).trim

/-- Whether two texts have the same tokens, up to ASCII case. -/
def sameTokens (a b : Text) : Bool :=
  (tokens a).map (·.text.toLowerAscii) == (tokens b).map (·.text.toLowerAscii)

end SqlScript.BigQuery
