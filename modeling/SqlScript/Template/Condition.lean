import SqlScript.Span

/-!
# Conditions

A condition is a text with a truth value. The legacy grammar knows `false`, `0`, `==` and `!=`, and
takes everything else for true. The extended grammar adds parenthesized groups, conjunctions with
`&`, disjunctions with `|`, the operator `<>`, membership in a list, `u in (v, w)`, and negated
constants. Groups are replaced by their value from the inside out; a text without groups that
contains `&` is a conjunction, else one that contains `|` is a disjunction, so the two are mixed
only with parentheses. The list after `in` is no group.
-/

namespace SqlScript

/-- The grammar a condition is read in. -/
inductive Grammar where
  | legacy
  | extended
deriving DecidableEq, Repr

namespace Condition

/-- An operand without blanks and quotes around it. -/
def operand (t : Text) : Text :=
  t.trim.unquote

/-- Whether the operands around the first occurrence of the operator are equal, if it occurs. -/
def compare? (operator t : Text) : Option Bool :=
  (t.cut? operator).map fun (left, right) => operand left == operand right

/-- The items of a list in parentheses that is not empty. -/
def listItems? : Text → Option (List Text)
  | '(' :: t =>
    if t.getLast? == some ')' && 1 < t.length then
      some ((Text.fields ',' t.dropLast).map operand)
    else none
  | _ => none

/-- The value of a membership test, if the text is one. -/
def member? (t : Text) : Option Bool :=
  (t.cutFolded? " in ".toList).bind fun (left, right) =>
    (listItems? right.trim).map fun items => items.contains (operand left)

/-- The value of a constant, negated or not, in any case. -/
def constant? (t : Text) : Option Bool :=
  let word := t.toLowerAscii
  if ["false".toList, "0".toList, "!true".toList, "!1".toList].contains word then some false
  else if ["true".toList, "1".toList, "!false".toList, "!0".toList].contains word then some true
  else none

/-- The value of a condition without operators that join conditions. A text of no known form is
true. -/
def evalPrimitive (t : Text) : Bool :=
  let t := t.trim
  match constant? t with
  | some value => value
  | none =>
    match compare? "==".toList t with
    | some equal => equal
    | none =>
      match (compare? "!=".toList t).or (compare? "<>".toList t) with
      | some equal => !equal
      | none => (member? t).getD true

/-- The operands between the marks, blank ones left out. -/
def operands (mark : Char) (t : Text) : List Text :=
  (t.fields mark).filter fun part => !part.trim.isEmpty

/-- The value of a condition without groups. -/
def evalFlat (t : Text) : Bool :=
  let t := t.trim
  if t.contains '&' then (operands '&' t).all evalPrimitive
  else if t.contains '|' then (operands '|' t).any evalPrimitive
  else evalPrimitive t

/-- Whether the text ends in the word `in`, blanks at the end aside. -/
def endsInMembership (t : Text) : Bool :=
  match t.reverse.dropWhile isBlank with
  | n :: i :: before => Text.eqFolded [i, n] "in".toList && before.head?.all isBlank
  | _ => false

/-- One digit for a truth value. -/
def digit (value : Bool) : Char :=
  if value then '1' else '0'

/-- Replaces the group with the given index by its value, unless it is the list of a membership
test. -/
def foldGroup (state : Text × SpanSet) (index : Nat) : Except Error (Text × SpanSet) := do
  let (t, groups) := state
  let group ← groups.get index
  if !group.valid then return state
  let before ← t.sliceTo group.start
  if endsInMembership before then return state
  let body ← t.slice group.inner.start group.inner.stop
  let after ← t.sliceFrom (group.start + 1)
  groups.splice (before ++ digit (evalFlat body) :: after)
    ⟨group.start, group.stop⟩ ⟨group.start, group.start + 1⟩

/-- The value of a condition of the extended grammar. -/
def evalExtended (t : Text) : Except Error Bool := do
  let t := t.trim
  let groups := SpanSet.find '(' ')' t
  let (flat, _) ← (List.range groups.length).foldlM foldGroup (t, groups)
  return evalFlat flat

/-- The value of a condition of the legacy grammar. -/
def evalLegacy (t : Text) : Bool :=
  let t := t.trim
  if t.eqFolded "false".toList || t == ['0'] then false
  else
    match compare? "==".toList t with
    | some equal => equal
    | none =>
      match compare? "!=".toList t with
      | some equal => !equal
      | none => true

/-- The value of a condition. -/
def eval (grammar : Grammar) (t : Text) : Except Error Bool :=
  match grammar with
  | .legacy => .ok (evalLegacy t)
  | .extended => evalExtended t

end Condition

end SqlScript
