import SqlScript.Template.Condition

/-!
# Conditional branches

In a template, `{condition}?{then}` and `{condition}?{then}:{else}` stand for one of their parts.
The braces are found first; `Branch.link` then joins spans into branches by what stands between
them, and `resolve` puts the chosen part in the place of each branch, in the order in which the
conditions close.
-/

namespace SqlScript

/-- A condition with its parts, as indices into a span set. -/
structure Branch where
  condition : Nat
  ifTrue : Nat
  ifFalse : Option Nat
deriving DecidableEq, Repr

namespace Branch

/-- The place after the mark that follows the span, with blanks around it passed over. A span that
starts there is separated from the given one by nothing but the mark. -/
def placeAfter? (t : Text) (mark : Char) (span : Span) : Except Error (Option Nat) := do
  let rest ← t.sliceFrom span.stop
  let gap : Text := rest.takeWhile isBlank
  match rest.dropWhile isBlank with
  | [] => return none
  | c :: body =>
    if c == mark then
      return some (span.stop + gap.byteSize + c.utf8Size + Text.byteSize (body.takeWhile isBlank))
    else return none

/-- The first of the numbered spans that the mark separates from the given span, and the spans
after it. -/
def firstSeparated? (t : Text) (mark : Char) (span : Span) (later : List (Span × Nat)) :
    Except Error (Option ((Span × Nat) × List (Span × Nat))) := do
  match ← placeAfter? t mark span with
  | none => return none
  | some place =>
    match later.dropWhile fun other => other.1.start != place with
    | found :: rest => return some (found, rest)
    | [] => return none

/-- The branches whose condition is one of the numbered spans. -/
def linkFrom (t : Text) : List (Span × Nat) → Except Error (List Branch)
  | [] => .ok []
  | (span, index) :: later => do
    match ← firstSeparated? t '?' span later with
    | none => linkFrom t later
    | some ((thenSpan, thenIndex), rest) =>
      let found ← firstSeparated? t ':' thenSpan rest
      let branches ← linkFrom t later
      return ⟨index, thenIndex, found.map fun next => next.1.2⟩ :: branches

/-- The branches of a text with the given spans. -/
def link (t : Text) (spans : SpanSet) : Except Error (List Branch) :=
  linkFrom t spans.zipIdx

/-- The last span of a branch. -/
def last (branch : Branch) : Nat :=
  branch.ifFalse.getD branch.ifTrue

/-- The bytes of the whole branch. -/
def extent (branch : Branch) (spans : SpanSet) : Except Error Extent := do
  let first ← spans.get branch.condition
  let last ← spans.get branch.last
  return ⟨first.start, last.stop⟩

/-- Whether all parts of the branch are still in the text. -/
def isValid (branch : Branch) (spans : SpanSet) : Except Error Bool := do
  let condition ← spans.get branch.condition
  let ifTrue ← spans.get branch.ifTrue
  let last ← spans.get branch.last
  return condition.valid && ifTrue.valid && last.valid

/-- Puts the chosen part in the place of the branch; a branch without the part is deleted. -/
def resolveIn (grammar : Grammar) (state : Text × SpanSet) (branch : Branch) :
    Except Error (Text × SpanSet) := do
  let (t, spans) := state
  unless ← branch.isValid spans do return state
  let region ← branch.extent spans
  let condition ← spans.get branch.condition
  let body ← t.slice condition.inner.start condition.inner.stop
  let holds ← Condition.eval grammar body
  match if holds then some branch.ifTrue else branch.ifFalse with
  | some index => do
    let chosen ← spans.get index
    spans.splice t region chosen.inner
  | none => spans.splice t region ⟨region.start, region.start⟩

/-- The text with every branch resolved. -/
def resolve (grammar : Grammar) (t : Text) : Except Error Text := do
  let spans := SpanSet.find '\x7b' '\x7d' t
  let branches ← link t spans
  let (resolved, _) ← branches.foldlM (resolveIn grammar) (t, spans)
  return resolved

end Branch

end SqlScript
