import SqlScript.Error
import SqlScript.Token.Piece

/-!
# Tokens

A token is a word or a symbol of the text with its place. Blanks and comments separate tokens and
are none themselves. A quote mark is a token of its own; the words and symbols after an opening mark
up to its closing mark, that mark included, are flagged as quoted, so that a reader can follow the
literals without losing the words inside them.

`Token.scan` reads a whole text and remembers a literal left open at its end. `tokenize` refuses
such a text, `tokens` takes what is there.
-/

namespace SqlScript

/-- A word or symbol of a text. -/
structure Token where
  /-- The offset of its first byte. -/
  start : Nat
  /-- The offset past its last byte. -/
  stop : Nat
  /-- Its characters as they stand in the text. -/
  text : Text
  /-- Whether it stands inside a quoted literal. -/
  inQuotes : Bool
deriving DecidableEq, Repr

/-- A quote mark that opened a literal, and its offset. -/
structure OpenQuote where
  mark : Char
  offset : Nat
deriving DecidableEq, Repr

/-- The tokens of a text, and the literal left open at its end. -/
structure Scan where
  tokens : List Token
  openQuote : Option OpenQuote
deriving DecidableEq, Repr

namespace Token

/-- Whether the token is the given word, up to ASCII case. -/
def is (token : Token) (word : Text) : Bool :=
  token.text.eqFolded word

/-- Whether the token is a quote mark. -/
def isQuote (token : Token) : Bool :=
  token.text == ['\''] || token.text == ['"']

/-- Whether the token is a bare identifier: letters, numerals and `_` only. -/
def isIdentifier (token : Token) : Bool :=
  !token.text.isEmpty && token.text.all fun c => isAlphanumeric c || c == '_'

/-- The open literal after the symbol `c` at the offset. -/
def quoteAfter (quote : Option OpenQuote) (offset : Nat) (c : Char) : Option OpenQuote :=
  match quote with
  | none => if Text.isQuoteMark c then some ⟨c, offset⟩ else none
  | some opened => if c == opened.mark then none else some opened

/-- The tokens of a text that stands at the offset, inside the literal `quote` if there is one. -/
def scanFrom (offset : Nat) (quote : Option OpenQuote) (t : Text) : Scan :=
  match _h : piece? quote.isSome t with
  | none => ⟨[], quote⟩
  | some (piece, rest) =>
    let stop := offset + piece.text.byteSize
    let token : Token := ⟨offset, stop, piece.text, quote.isSome⟩
    match piece with
    | .word _ =>
      let scan := scanFrom stop quote rest
      { scan with tokens := token :: scan.tokens }
    | .symbol c =>
      let scan := scanFrom stop (quoteAfter quote offset c) rest
      { scan with tokens := token :: scan.tokens }
    | .blank _ => scanFrom stop quote rest
    | .comment _ => scanFrom stop quote rest
termination_by t.length
decreasing_by all_goals exact length_lt_of_piece? _h

/-- The tokens of a text. -/
def scan (t : Text) : Scan :=
  scanFrom 0 none t

end Token

/-- The tokens of a text, whether or not its last literal is closed. -/
def tokens (t : Text) : List Token :=
  (Token.scan t).tokens

/-- The tokens of a text all of whose literals are closed. -/
def tokenize (t : Text) : Except Error (List Token) :=
  let scan := Token.scan t
  match scan.openQuote with
  | none => .ok scan.tokens
  | some opened => .error (.unterminatedLiteral opened.mark opened.offset)

end SqlScript
