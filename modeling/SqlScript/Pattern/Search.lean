import SqlScript.Pattern.Basic
import SqlScript.Template.Parameter

/-!
# Searching for patterns

`search` finds the first token at which a pattern matches. A literal matches one token up to ASCII
case; the first literal never matches inside a quoted literal of the text. A variable before a
literal takes the text up to the first token equal to that literal while no parenthesis or quote
opened on the way is still open, and never goes past a `;` or past a `)` that closes what was opened
before it. A constrained variable that stands first, or has no literal to stop at, takes what its
expression matches.
-/

namespace SqlScript

/-- A match of a pattern. -/
structure PatternMatch where
  /-- The offset where it starts. -/
  start : Nat
  /-- The offset past its end. -/
  stop : Nat
  /-- The index of its first token. -/
  startToken : Nat
  /-- What the variables took. -/
  bindings : Parameters
deriving DecidableEq, Repr

namespace Search

/-- What is open after the token inside a capture: parentheses and quote marks, the last one first.
Between quotes of the pattern parentheses do not count. -/
def openAfter (inPatternQuote : Bool) (opened : List Char) (token : Token) : List Char :=
  let inLiteral := opened.head?.any Text.isQuoteMark
  if inLiteral then
    if token.text == opened.take 1 then opened.drop 1 else opened
  else if token.isQuote then token.text.take 1 ++ opened
  else if inPatternQuote then opened
  else if token.text == ['('] then '(' :: opened
  else if token.text == [')'] && opened.head? == some '(' then opened.drop 1
  else opened

/-- The token at which a capture stops, and the tokens after it. -/
def boundary? (inPatternQuote : Bool) (literal : Text) (opened : List Char) :
    List Token → Option (Token × List Token)
  | [] => none
  | token :: later =>
    if opened.isEmpty && token.is literal then some (token, later)
    else if opened.isEmpty && !inPatternQuote && (token.text == [';'] || token.text == [')']) then
      none
    else boundary? inPatternQuote literal (openAfter inPatternQuote opened token) later

/-- How far an attempt to match has come. -/
structure Attempt where
  /-- The offset past what is matched. -/
  stop : Nat
  /-- The offset where the next capture starts. -/
  captureStart : Nat
  /-- Whether a quote that the pattern has as a literal is open. -/
  inPatternQuote : Bool
  /-- What the variables took so far. -/
  bindings : Parameters

/-- The start of the first token, or the end of the text. -/
def startOf (sql : Text) : List Token → Nat
  | token :: _ => token.start
  | [] => sql.byteSize

/-- The attempt after a literal matched the token, when `later` follows it. -/
def Attempt.afterLiteral (attempt : Attempt) (sql : Text) (token : Token) (later : List Token) :
    Attempt where
  stop := token.stop
  captureStart := startOf sql later
  inPatternQuote := attempt.inPatternQuote != token.isQuote
  bindings := attempt.bindings

/-- The attempt after a variable took what its constraint matches at the first token, and the
tokens after it. -/
def takeLead (sql : Text) (name : Text) (constraint : Constraint) (attempt : Attempt)
    (tokens : List Token) : Except Error (Option (Attempt × List Token)) :=
  match tokens with
  | [] => .ok none
  | token :: _ => do
    let rest ← sql.sliceFrom token.start
    match constraint.matchLead? rest with
    | none => return none
    | some size =>
      let stop := token.start + size
      let value ← sql.slice token.start stop
      let bindings := attempt.bindings.insert name value
      return some (⟨stop, stop, attempt.inPatternQuote, bindings⟩,
        tokens.dropWhile fun token => token.start < stop)

/-- The attempt after the blocks matched the tokens. -/
def matchBlocks (sql : Text) :
    List PatternBlock → Attempt → List Token → Except Error (Option Attempt)
  | [], attempt, _ => .ok (some attempt)
  | .literal text :: blocks, attempt, tokens =>
    match tokens with
    | token :: later =>
      if token.is text then matchBlocks sql blocks (attempt.afterLiteral sql token later) later
      else .ok none
    | [] => .ok none
  | .placeholder name constraint :: .literal text :: blocks, attempt, tokens =>
    match boundary? attempt.inPatternQuote text [] tokens with
    | none => .ok none
    | some (token, later) => do
      let value ← sql.slice (min attempt.captureStart token.start) token.start
      if constraint.all (·.matchesWhole value.trimEnd) then
        let attempt := { attempt with bindings := attempt.bindings.insert name value }
        matchBlocks sql blocks (attempt.afterLiteral sql token later) later
      else return none
  | .placeholder name (some constraint) :: blocks, attempt, tokens => do
    match ← takeLead sql name constraint attempt tokens with
    | none => return none
    | some (attempt, later) => matchBlocks sql blocks attempt later
  | .placeholder _ none :: _, _, _ => .ok none

/-- The attempt that matches the blocks from the first token on. -/
def matchAt (sql : Text) (blocks : List PatternBlock) (token : Token) (later : List Token) :
    Except Error (Option Attempt) :=
  let attempt : Attempt := ⟨token.start, token.start, false, []⟩
  match blocks with
  | .literal text :: blocks =>
    if token.is text && !token.inQuotes then
      matchBlocks sql blocks (attempt.afterLiteral sql token later) later
    else .ok none
  | .placeholder name (some constraint) :: blocks => do
    match ← takeLead sql name constraint attempt (token :: later) with
    | none => return none
    | some (attempt, later) => matchBlocks sql blocks attempt later
  | _ => .ok none

/-- The first match among the tokens, the first of which has the given index. -/
def firstFrom (sql : Text) (blocks : List PatternBlock) (index : Nat) :
    List Token → Except Error (Option PatternMatch)
  | [] => .ok none
  | token :: later => do
    match ← matchAt sql blocks token later with
    | some attempt => return some ⟨token.start, attempt.stop, index, attempt.bindings⟩
    | none => firstFrom sql blocks (index + 1) later

end Search

/-- The first match of the pattern in a text with the given tokens, at token `first` or later. -/
def search (sql : Text) (tokens : List Token) (pattern : Pattern) (first : Nat) :
    Except Error (Option PatternMatch) :=
  Search.firstFrom sql pattern.blocks first (tokens.drop first)

end SqlScript
