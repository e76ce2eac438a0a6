import SqlScript.BigQuery.Clause

/-!
# Comma-separated lists

A list is cut at its commas outside parentheses and quotes. What an element holds besides its
expression depends on the kind of list: an alias in a select list, a direction in an `order by`
list. A select list may start with `distinct` and end with an `into` clause, and a `group by` list
may be followed by an `order by` clause; these are kept apart from the elements.
-/

namespace SqlScript.BigQuery

/-- The kinds of list. -/
inductive ListKind where
  | select
  | groupBy
  | orderBy
  /-- The columns of a common table expression. -/
  | columns
  /-- The values of a membership test. -/
  | values
deriving DecidableEq, Repr

/-- An element of a list. -/
structure Element where
  expression : Text
  /-- The alias, or the direction with a space before it. -/
  suffix : Text
deriving DecidableEq, Repr

namespace Element

/-- `expression as alias`, whole. -/
def aliasPattern : Pattern :=
  .ofWords ["^", "@a", "as", "@b", "$"]

/-- Whether the last token of an expression is an alias without `as`: an identifier that does not
go on what stands before it. -/
def isBareAlias (before last : Token) : Bool :=
  last.isIdentifier && !last.text.head?.any Char.isDigit && !last.is "end".toList &&
    before.text != ['.'] && before.text != ['+']

/-- The expression and alias of an element of a select list. -/
def splitAlias (t : Text) : Except Error Element := do
  match ← findWhole t aliasPattern with
  | some found => return ⟨capture found "a", capture found "b"⟩
  | none =>
    match (tokens t).reverse with
    | last :: before :: _ =>
      if isBareAlias before last then
        let expression ← t.sliceTo last.start
        return ⟨expression.trimEnd, last.text⟩
      else return ⟨t, []⟩
    | _ => return ⟨t, []⟩

/-- The expression and direction of an element of an `order by` list. -/
def splitDirection (t : Text) : Except Error Element :=
  match (tokens t).getLast? with
  | some last =>
    if last.is "asc".toList || last.is "desc".toList then do
      let expression ← t.sliceTo last.start
      return ⟨expression.trimEnd, ' ' :: last.text⟩
    else .ok ⟨t, []⟩
  | none => .ok ⟨t, []⟩

/-- The element of a text. -/
def ofText (kind : ListKind) (t : Text) : Except Error Element :=
  match kind with
  | .select => splitAlias t
  | .orderBy => splitDirection t
  | .groupBy | .columns | .values => .ok ⟨t, []⟩

/-- Whether the expression is a column of a table, `table.column`. -/
def isColumn (element : Element) : Bool :=
  match tokens element.expression with
  | [table, dot, column] => table.isIdentifier && dot.text == ['.'] && column.isIdentifier
  | _ => false

end Element

/-- A list and the clauses around it. -/
structure CommaList where
  /-- `distinct` and a space, or nothing. -/
  lead : Text := []
  elements : List Element := []
  /-- An `into` or `order by` clause with a space before it, or nothing. -/
  tail : Text := []
deriving DecidableEq, Repr

namespace CommaList

/-- `distinct` before a select list. -/
def distinctPattern : Pattern :=
  .ofWords ["^", "distinct", "@a", "$"]

/-- An `into` clause after a select list. -/
def intoPattern : Pattern :=
  .ofWords ["^", "@a", "into", "@b", "$"]

/-- An `order by` clause after a `group by` list. -/
def orderByPattern : Pattern :=
  .ofWords ["^", "@a", "order", "by", "@b", "$"]

/-- An element between its commas. -/
def elementPattern : Pattern :=
  .ofWords [",", "@a", ","]

/-- The lead, body and tail of a list. -/
def splitClauses (kind : ListKind) (t : Text) : Except Error (Text × Text × Text) := do
  match kind with
  | .select =>
    let (lead, body) ←
      match ← findWhole t distinctPattern with
      | some found => pure ("distinct ".toList, capture found "a")
      | none => pure ([], t)
    match ← findWhole body intoPattern with
    | some found => return (lead, capture found "a", " into ".toList ++ capture found "b")
    | none => return (lead, body, [])
  | .groupBy =>
    match ← findWhole t orderByPattern with
    | some found => return ([], capture found "a", " order by ".toList ++ capture found "b")
    | none => return ([], t, [])
  | .orderBy | .columns | .values => return ([], t, [])

/-- The index of the token that stops at the offset, or the number of tokens. -/
def indexOfStop (tokens : List Token) (stop : Nat) : Nat :=
  tokens.findIdx fun token => token.stop == stop

/-- The texts of the elements of a list with a comma on both ends, from token `first` on. The comma
that closes an element opens the next one. -/
def elementTexts (wrapped : Text) (tokens : List Token) : Nat → Nat → Except Error (List Text)
  | 0, _ => .error .stepLimit
  | fuel + 1, first => do
    match ← search wrapped tokens elementPattern first with
    | none => return []
    | some found =>
      let later ← elementTexts wrapped tokens fuel (indexOfStop tokens found.stop)
      return capture found "a" :: later

/-- The elements of a list without its clauses. -/
def elementsOf (kind : ListKind) (body : Text) : Except Error (List Element) := do
  let wrapped := ',' :: body ++ [',']
  let tokens := tokens wrapped
  let texts ← elementTexts wrapped tokens (tokens.length + 1) 0
  texts.mapM (Element.ofText kind)

/-- The list of a text. -/
def parse (kind : ListKind) (t : Text) : Except Error CommaList := do
  let (lead, body, tail) ← splitClauses kind t
  return ⟨lead, ← elementsOf kind body, tail⟩

/-- The texts joined by commas. -/
def join (texts : List Text) : Text :=
  ", ".toList.intercalate texts

end CommaList

end SqlScript.BigQuery
