import SqlScript.Token.Basic

/-!
# Statements of a script

A script is split at each `;` that stands outside quoted literals, bracketed identifiers and blocks.
A block is `BEGIN … END` or `CASE … END`; `END IF` closes none, and an `END` without a block is
passed over. A statement runs from its first token through its `;`; what follows the last `;` is a
statement too, and a `;` with nothing before it is none.
-/

namespace SqlScript

/-- The two kinds of block. -/
inductive Block where
  /-- `BEGIN … END`. -/
  | compound
  /-- `CASE … END`. -/
  | choice
deriving DecidableEq, Repr

/-- What surrounds a token of a script. -/
structure Nesting where
  /-- The open blocks, the innermost first. -/
  blocks : List Block := []
  /-- The block that was closed last. -/
  lastClosed : Option Block := none
  /-- The quote mark of the open literal. -/
  quote : Option Text := none
  /-- Whether a bracketed identifier is open. -/
  inBracket : Bool := false
deriving DecidableEq, Repr

namespace Nesting

/-- What surrounds the text after the token, when `next` is the token that follows it. Brackets
come before quotes, so `[it's]` opens no literal. -/
def after (nesting : Nesting) (token : Token) (next : Option Token) : Nesting :=
  if nesting.inBracket then { nesting with inBracket := token.text != [']'] }
  else
    match nesting.quote with
    | some mark => if token.text == mark then { nesting with quote := none } else nesting
    | none =>
      if token.isQuote then { nesting with quote := some token.text }
      else if token.text == ['['] then { nesting with inBracket := true }
      else if token.is "begin".toList then { nesting with blocks := .compound :: nesting.blocks }
      else if token.is "case".toList then { nesting with blocks := .choice :: nesting.blocks }
      else if token.is "end".toList && !next.any (·.is "if".toList) then
        match nesting.blocks with
        | block :: outer => { nesting with blocks := outer, lastClosed := some block }
        | [] => nesting
      else nesting

/-- Whether the token ends a statement here. -/
def isEnd (nesting : Nesting) (token : Token) : Bool :=
  !nesting.inBracket && nesting.quote.isNone && nesting.blocks.isEmpty && token.text == [';']

end Nesting

/-- The place of a statement in its script. -/
structure Statement where
  /-- The offset of its first token. -/
  start : Nat
  /-- The offset past its last token. -/
  stop : Nat
  /-- The offset of the `;` that ends it. -/
  terminator : Option Nat
  /-- Whether the `;` follows an `END`, and the last block closed is `BEGIN … END`. -/
  endsBlock : Bool
deriving DecidableEq, Repr

/-- What becomes of the `;` that ends a statement. -/
inductive TerminatorPolicy where
  /-- Every statement keeps it. -/
  | keep
  /-- Only a statement that ends in a closed `BEGIN … END` keeps it; others lose it and the blanks
  before it. -/
  | blockOnly
deriving DecidableEq, Repr

namespace Statement

/-- The statements among the tokens that follow `previous`, the first of which starts at `start`
if that is known. -/
def collect (nesting : Nesting) (start : Option Nat) (previous : Option Token) :
    List Token → List Statement
  | [] =>
    match start, previous with
    | some first, some last => [⟨first, last.stop, none, false⟩]
    | _, _ => []
  | token :: later =>
    let first := start.getD token.start
    let inside := nesting.after token later.head?
    if nesting.isEnd token then
      let statements := collect inside none (some token) later
      if first < token.start then
        let endsBlock := previous.any (·.is "end".toList) && nesting.lastClosed == some .compound
        ⟨first, token.stop, some token.start, endsBlock⟩ :: statements
      else statements
    else collect inside (some first) (some token) later

/-- The statements of a script. -/
def all (sql : Text) : List Statement :=
  collect {} none none (tokens sql)

/-- The text of a statement of the script. -/
def text (policy : TerminatorPolicy) (sql : Text) (statement : Statement) : Except Error Text :=
  match policy, statement.terminator with
  | .blockOnly, some semicolon =>
    if statement.endsBlock then sql.slice statement.start statement.stop
    else do
      let body ← sql.slice statement.start semicolon
      return body.trimEnd
  | _, _ => sql.slice statement.start statement.stop

end Statement

/-- The texts of the statements of a script. -/
def split (policy : TerminatorPolicy) (sql : Text) : Except Error (List Text) :=
  (Statement.all sql).mapM (Statement.text policy sql)

end SqlScript
