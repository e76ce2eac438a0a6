import SqlScript.Regex.Reader

/-!
# Regular expressions

A regular expression with its flags worked in: every character set says what it matches and every
assertion what it asks. `Expr.lower?` makes it from a pattern by carrying the flags through. A flag
set inside a group holds to the end of the group. Outside Unicode mode only sets of ASCII characters
have a meaning.
-/

namespace SqlScript

/-- What an assertion asks of a place. -/
inductive Assertion where
  | textStart
  | textEnd
  | lineStart (crlf : Bool)
  | lineEnd (crlf : Bool)
  /-- A word boundary; words are made of Unicode or of ASCII characters. -/
  | boundary (unicode : Bool) (kind : Regex.Boundary)
deriving DecidableEq, Repr

/-- A regular expression. -/
inductive Regex where
  | empty
  /-- One character of the set. -/
  | one (set : CharSet)
  | assertion (form : Assertion)
  | seq (a b : Regex)
  /-- Either side, the left one preferred. -/
  | alt (a b : Regex)
  /-- From `least` to `most` times, as often as possible if greedy. -/
  | repetition (body : Regex) (least : Nat) (most : Option Nat) (greedy : Bool)
  /-- A group whose place in the text is kept. Nothing asks for it here, but it takes room. -/
  | capture (body : Regex)
deriving DecidableEq, Repr

namespace Regex

/-- The flags in force at a place of a pattern. -/
structure Flags where
  ignoreCase : Bool := false
  multiLine : Bool := false
  dotAll : Bool := false
  swapGreed : Bool := false
  unicode : Bool := true
  crlf : Bool := false
deriving DecidableEq, Repr

/-- The flags after changes. -/
def Flags.apply (flags : Flags) (changes : FlagChanges) : Flags where
  ignoreCase := (changes.get? .ignoreCase).getD flags.ignoreCase
  multiLine := (changes.get? .multiLine).getD flags.multiLine
  dotAll := (changes.get? .dotAll).getD flags.dotAll
  swapGreed := (changes.get? .swapGreed).getD flags.swapGreed
  unicode := (changes.get? .unicode).getD flags.unicode
  crlf := (changes.get? .crlf).getD flags.crlf

namespace ClassExpr

/-- The set, folded if case is ignored and then complemented if negated. In ASCII mode a set that
reaches past ASCII has no meaning. -/
def finish? (flags : Flags) (negated : Bool) (set : CharSet) : Option CharSet :=
  let closed :=
    if !flags.ignoreCase then set else if flags.unicode then .folded set else .foldedAscii set
  let whole := if negated then .compl closed else closed
  if flags.unicode then some whole
  else if whole.isAscii then some whole.ascii
  else none

/-- The set of a short class. -/
def shortSet (unicode : Bool) : ShortClass → CharSet
  | .digit => if unicode then .digit else .ofRanges [(0x30, 0x39)]
  | .blank => if unicode then .blank else .ofRanges [(0x09, 0x0D), (0x20, 0x20)]
  | .word =>
    if unicode then .word
    else .ofRanges [(0x30, 0x39), (0x41, 0x5A), (0x5F, 0x5F), (0x61, 0x7A)]

/-- The set of a class under the flags. -/
def lower? (flags : Flags) : ClassExpr → Option CharSet
  | empty => some .empty
  | range lo hi =>
    if flags.unicode || hi.toNat < 0x80 then some (.range lo.toNat hi.toNat) else none
  | short kind negated =>
    finish? { flags with ignoreCase := false } negated (shortSet flags.unicode kind)
  | ascii ranges negated => finish? flags negated (.ofRanges ranges)
  | property set negated => if flags.unicode then finish? flags negated set else none
  | bracket negated body => do finish? flags negated (← lower? flags body)
  | union a b => do return .union (← lower? flags a) (← lower? flags b)
  | operation operator a b => do
    let close (set : CharSet) : CharSet :=
      if !flags.ignoreCase then set else if flags.unicode then .folded set else .foldedAscii set
    let left := close (← lower? flags a)
    let right := close (← lower? flags b)
    match operator with
    | .inter => return .inter left right
    | .diff => return .diff left right
    | .symmDiff => return .symmDiff left right

end ClassExpr

/-- Whether the expression takes no character. -/
def isZeroWidth : Regex → Bool
  | empty => true
  | one _ => false
  | assertion _ => true
  | seq a b => a.isZeroWidth && b.isZeroWidth
  | alt a b => a.isZeroWidth && b.isZeroWidth
  | repetition body _ _ _ => body.isZeroWidth
  | capture body => body.isZeroWidth

/-- The repetition of an expression. One that takes no character need not be repeated. -/
def repeated (body : Regex) (least : Nat) (most : Option Nat) (greedy : Bool) : Regex :=
  if body.isZeroWidth then repetition body (min least 1) (some (min (most.getD 1) 1)) greedy
  else repetition body least most greedy

namespace Expr

/-- What an assertion of a pattern asks under the flags. -/
def lowerAssertion (flags : Flags) : AssertionForm → Assertion
  | .caret => if flags.multiLine then .lineStart flags.crlf else .textStart
  | .dollar => if flags.multiLine then .lineEnd flags.crlf else .textEnd
  | .textStart => .textStart
  | .textEnd => .textEnd
  | .boundary kind => .boundary flags.unicode kind

/-- The set of a single character under the flags. -/
def lowerLiteral? (flags : Flags) (c : Char) (isByte : Bool) : Option CharSet :=
  if flags.unicode then
    some (if flags.ignoreCase then .folded (.single c) else .single c)
  else if isByte && 0x80 ≤ c.toNat then none
  else some (if flags.ignoreCase then .foldedAscii (.single c) else .single c)

/-- The set of the dot under the flags. -/
def lowerDot? (flags : Flags) : Option CharSet :=
  if !flags.unicode then none
  else if flags.dotAll then some .full
  else if flags.crlf then some (.compl (.union (.single '\n') (.single '\r')))
  else some (.compl (.single '\n'))

/-- The regular expression of a pattern under the flags, and the flags after it. -/
def lower? (flags : Flags) : Expr → Option (Regex × Flags)
  | empty => some (.empty, flags)
  | literal c isByte => do return (.one (← lowerLiteral? flags c isByte), flags)
  | dot => do return (.one (← lowerDot? flags), flags)
  | assertion form => some (.assertion (lowerAssertion flags form), flags)
  | charClass body => do return (.one (← body.lower? flags), flags)
  | Expr.flags changes => some (.empty, flags.apply changes)
  | group capturing changes body => do
    let (inner, _) ← lower? (flags.apply changes) body
    return (if capturing then .capture inner else inner, flags)
  | repetition body least most greedy => do
    let (inner, after) ← lower? flags body
    return (repeated inner least most (greedy != flags.swapGreed), after)
  | concat a b => do
    let (left, flags) ← lower? flags a
    let (right, flags) ← lower? flags b
    return (.seq left right, flags)
  | alternation a b => do
    let (left, flags) ← lower? flags a
    let (right, flags) ← lower? flags b
    return (.alt left right, flags)

end Expr

end Regex

end SqlScript
