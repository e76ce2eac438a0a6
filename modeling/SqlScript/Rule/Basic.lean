import SqlScript.Pattern.Search
import SqlScript.Session
import SqlScript.Steps

/-!
# Rules

A rule has a pattern to search for and a text to put in the place of each match, in which `@name`
stands for what the variable took. A rule is applied until its pattern is found no more, and only
then comes the next rule. The search goes on after the first token of what was put in; where
nothing was put in, it goes on in the same place.
-/

namespace SqlScript

/-- A rule as it is written. -/
structure Rule where
  search : Text
  replace : Text
deriving DecidableEq, Repr

/-- A rule that can be applied. -/
structure CompiledRule where
  pattern : Pattern
  replacement : Text
deriving DecidableEq, Repr

namespace CompiledRule

/-- The rule with its pattern compiled and its references to the session filled in. -/
def ofRule (values : SessionValues) (rule : Rule) : Except Error CompiledRule := do
  let pattern ← Pattern.compile rule.search
  return ⟨pattern, values.fill rule.replace⟩

/-- How many tokens the search goes on after the first token of a match. -/
def advance (rule : CompiledRule) : Nat :=
  if (tokens rule.replacement).isEmpty then 0 else 1

/-- Replaces the next match, if there is one. -/
def step (rule : CompiledRule) (state : Progress) : Except Error (Option Progress) := do
  let tokens ← tokenize state.sql
  match ← SqlScript.search state.sql tokens rule.pattern state.first with
  | none => return none
  | some found =>
    let inserted := found.bindings.substitute rule.replacement
    let sql ← state.sql.replaceSlice found.start found.stop inserted
    return some ⟨sql, found.startToken + rule.advance⟩

/-- Replaces all matches. -/
def apply (rule : CompiledRule) (sql : Text) : Except Error Text :=
  Progress.run rule.step sql

end CompiledRule

/-- Applies the rules in order. -/
def applyRules (session : Session) (rules : List Rule) (sql : Text) : Except Error Text := do
  let values ← session.values
  rules.foldlM (fun sql rule => do (← CompiledRule.ofRule values rule).apply sql) sql

end SqlScript
