import SqlScript.Pattern.Search

/-!
# The search as one loop

`search` tries one token after the other as the first token of a match. A `Matcher` comes to the
same answer in a single loop that looks at one token in each turn (`Matcher.turn`). It has a cursor
and the state of one attempt. A turn goes on with the attempt, or gives it up and puts the cursor
back behind the token at which it started, or stops.

Blocks and tokens are read by index here, and the text is cut by offsets. A turn that reads or cuts
where there is nothing stops, and says so; and so does a turn in which a variable has no literal to
stop at.
-/

namespace SqlScript

/-- The state of the loop. -/
structure Matcher where
  /-- The index of the token to look at. -/
  cursor : Nat
  /-- The index of the block to be matched. -/
  block : Nat := 0
  /-- The offset where the attempt started. -/
  start : Nat := 0
  /-- The index of the token where it started. -/
  startToken : Nat := 0
  /-- The offset where the next capture starts. -/
  captureStart : Nat := 0
  /-- What is open inside a capture: parentheses and quote marks, the last one first. -/
  opened : List Char := []
  /-- Whether a quote that the pattern has as a literal is open. -/
  inPatternQuote : Bool := false
  /-- What the variables took so far. -/
  bindings : Parameters := []
deriving DecidableEq, Repr

namespace Matcher

/-- How the loop can end. -/
inductive Outcome where
  | found (result : PatternMatch)
  /-- No token is left to start at. -/
  | exhausted
  /-- A variable has no literal to stop at. -/
  | unbounded
  /-- A block or token was read that does not exist. -/
  | outOfRange
  /-- The text was cut where it has no place, or backwards. -/
  | badSlice
deriving DecidableEq, Repr

/-- What a turn of the loop comes to. -/
inductive Turn where
  | next (matcher : Matcher)
  | stop (outcome : Outcome)
deriving DecidableEq, Repr

/-- The literal directly after the block with the index. -/
def literalAfter? (blocks : List PatternBlock) (index : Nat) : Option Text :=
  match blocks[index + 1]? with
  | some (.literal text) => some text
  | _ => none

/-- The start of the token after the one with the index, or the end of the text. -/
def nextStart (sql : Text) (tokens : List Token) (index : Nat) : Nat :=
  match tokens[index + 1]? with
  | some token => token.start
  | none => sql.byteSize

/-- Whether an attempt is under way. -/
def isStarted (matcher : Matcher) : Bool :=
  matcher.block != 0

/-- Starts an attempt at the token, unless one is under way. -/
def startAt (matcher : Matcher) (token : Token) : Matcher :=
  if matcher.isStarted then matcher
  else { matcher with start := token.start, startToken := matcher.cursor }

/-- Gives the attempt up. -/
def restart (matcher : Matcher) : Matcher where
  cursor := matcher.startToken + 1

/-- The token does not match: an attempt that is under way is given up, and else the cursor moves
on. -/
def miss (matcher : Matcher) : Turn :=
  if matcher.isStarted then .next matcher.restart
  else .next { matcher with cursor := matcher.cursor + 1 }

/-- The match that the attempt has come to. -/
def finish (matcher : Matcher) (stop : Nat) : PatternMatch where
  start := matcher.start
  stop := stop
  startToken := matcher.startToken
  bindings := matcher.bindings

section Turns

variable (sql : Text) (tokens : List Token) (blocks : List PatternBlock)

/-- Goes on past a token that is a literal of the pattern. The block is already the next one. -/
def pass (matcher : Matcher) (token : Token) : Turn :=
  if matcher.block = blocks.length then .stop (.found (matcher.finish token.stop))
  else
    match blocks[matcher.block]? with
    | none => .stop .outOfRange
    | some block =>
      .next { matcher with
        cursor := matcher.cursor + 1
        captureStart :=
          if block.isPlaceholder then nextStart sql tokens matcher.cursor else matcher.captureStart
        inPatternQuote := matcher.inPatternQuote != token.isQuote }

/-- A turn at a literal. The first literal does not match inside of quotes. -/
def literalTurn (matcher : Matcher) (token : Token) (text : Text) : Turn :=
  if token.is text && (matcher.isStarted || !token.inQuotes) then
    pass sql tokens blocks { matcher.startAt token with block := matcher.block + 1 } token
  else matcher.miss

/-- A turn at a variable that takes what its constraint matches at the token. -/
def leadTurn (matcher : Matcher) (token : Token) (name : Text) (constraint : Constraint) : Turn :=
  match sql.dropBytes? token.start with
  | none => .stop .badSlice
  | some rest =>
    match constraint.matchLead? rest with
    | none => matcher.miss
    | some size =>
      let stop := token.start + size
      match sql.slice? token.start stop with
      | none => .stop .badSlice
      | some value =>
        let matcher := { matcher.startAt token with
          block := matcher.block + 1
          bindings := matcher.bindings.insert name value }
        if matcher.block = blocks.length then .stop (.found (matcher.finish stop))
        else if tokens.length < matcher.cursor then .stop .outOfRange
        else
          let skipped := (tokens.drop matcher.cursor).findIdx fun token => stop ≤ token.start
          .next { matcher with cursor := matcher.cursor + skipped, captureStart := stop }

/-- A turn at a variable that takes the text up to a literal. -/
def captureTurn (matcher : Matcher) (token : Token) (name : Text)
    (constraint : Option Constraint) : Turn :=
  match literalAfter? blocks matcher.block with
  | none => .stop .unbounded
  | some text =>
    if matcher.opened.isEmpty && token.is text then
      match sql.slice? (min matcher.captureStart token.start) token.start with
      | none => .stop .badSlice
      | some value =>
        if constraint.all (·.matchesWhole value.trimEnd) then
          pass sql tokens blocks
            { matcher with
              block := matcher.block + 2
              bindings := matcher.bindings.insert name value } token
        else .next matcher.restart
    else if matcher.opened.isEmpty && !matcher.inPatternQuote &&
        (token.text == [';'] || token.text == [')']) then .next matcher.restart
    else
      .next { matcher with
        cursor := matcher.cursor + 1
        opened := Search.openAfter matcher.inPatternQuote matcher.opened token }

/-- One turn of the loop. -/
def turn (matcher : Matcher) : Turn :=
  match tokens[matcher.cursor]? with
  | none => if matcher.isStarted then .next matcher.restart else .stop .exhausted
  | some token =>
    match blocks[matcher.block]? with
    | none => .stop .outOfRange
    | some (.literal text) => literalTurn sql tokens blocks matcher token text
    | some (.placeholder name (some constraint)) =>
      if !matcher.isStarted || (literalAfter? blocks matcher.block).isNone then
        leadTurn sql tokens blocks matcher token name constraint
      else captureTurn sql tokens blocks matcher token name (some constraint)
    | some (.placeholder name none) => captureTurn sql tokens blocks matcher token name none

/-- How the loop ends within the given number of turns, if it does. -/
def run : Nat → Matcher → Option Outcome
  | 0, _ => none
  | turns + 1, matcher =>
    match turn sql tokens blocks matcher with
    | .next matcher => run turns matcher
    | .stop outcome => some outcome

end Turns

end Matcher

end SqlScript
