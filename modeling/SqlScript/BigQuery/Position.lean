import SqlScript.BigQuery.CommaList

/-!
# References by position

BigQuery accepts no complex expression in a `group by` or `order by` list. An element that occurs in
the select list is replaced by its position there, counted from one; a plain column of a table and
an element that occurs nowhere stay.
-/

namespace SqlScript.BigQuery.Position

/-- A statement that ends in a `group by` list. -/
def groupByPattern : Pattern :=
  .ofWords ["select", "@s", "from", "@b", "group", "by", "@r", ";"]

/-- A query in parentheses that ends in a `group by` list. -/
def nestedGroupByPattern : Pattern :=
  .ofWords ["select", "@s", "from", "@b", "group", "by", "@r", ")"]

/-- A statement that ends in an `order by` list after a `group by` list. -/
def orderByPattern : Pattern :=
  .ofWords ["select", "@s", "from", "@b", "group", "by", "@c", "order", "by", "@r", ";"]

/-- The index of the first text that satisfies the test. -/
def firstIndex? (test : Text → Except Error Bool) : List Text → Except Error (Option Nat)
  | [] => .ok none
  | t :: texts => do
    if ← test t then return some 0
    return (← firstIndex? test texts).map (· + 1)

/-- The index of the first select expression in which the expression, taken as a pattern, is
found. An expression that is no pattern is found nowhere. -/
def indexByPattern? (expression : Text) (candidates : List Text) : Except Error (Option Nat) :=
  match Pattern.compile expression with
  | .error _ => .ok none
  | .ok pattern =>
    firstIndex? (fun t => do return (← findClause t pattern 0).isSome) candidates

/-- What takes the place of an element's expression. -/
def reference (select : CommaList) (element : Element) : Except Error Text := do
  if element.isColumn then return element.expression
  let candidates := select.elements.map (·.expression)
  let index ←
    match candidates.findIdx? (sameTokens · element.expression) with
    | some index => pure (some index)
    | none => indexByPattern? element.expression candidates
  match index with
  | some index => return (toString (index + 1)).toList
  | none => return element.expression

/-- The list with its elements replaced by positions. -/
def converted (kind : ListKind) (select : CommaList) (list : Text) : Except Error Text := do
  let parsed ← CommaList.parse kind list
  let items ← parsed.elements.mapM fun element => do
    return (← reference select element) ++ element.suffix
  return parsed.lead ++ CommaList.join items ++ parsed.tail

/-- Converts the next list, which stands before the last literal of the pattern, a single byte. The
blanks after the list stay. -/
def step (pattern : Pattern) (kind : ListKind) (state : Progress) :
    Except Error (Option Progress) := do
  match ← findClause state.sql pattern state.first with
  | none => return none
  | some found =>
    let list := (found.bindings.get? ['r']).getD []
    let select ← CommaList.parse .select (capture found "s")
    let inserted ← converted kind select list
    let start := found.stop - 1 - list.byteSize
    let sql ← state.sql.replaceSlice start (start + list.trimEnd.byteSize) inserted
    return some ⟨sql, found.startToken + 1⟩

/-- Converts all lists that the pattern finds. A `;` is put behind the text while this is done, for
a last statement that lacks one. -/
def convert (pattern : Pattern) (kind : ListKind) (sql : Text) : Except Error Text := do
  let changed ← Progress.run (step pattern kind) (sql ++ [';'])
  return changed.dropLast

end SqlScript.BigQuery.Position
