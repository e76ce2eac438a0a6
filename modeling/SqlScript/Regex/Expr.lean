import SqlScript.Regex.CharSet

/-!
# Regular expressions as they are written

The tree of a regular expression as it stands in the pattern. Flags are still in it, so what a
letter or a dot matches depends on where it stands.
-/

namespace SqlScript.Regex

/-- The flags a pattern can set, by their letters. -/
inductive Flag where
  /-- `i`: letters match in both cases. -/
  | ignoreCase
  /-- `m`: `^` and `$` match at line breaks. -/
  | multiLine
  /-- `s`: the dot matches a line feed. -/
  | dotAll
  /-- `U`: repetition is lazy unless marked. -/
  | swapGreed
  /-- `u`: characters are those of Unicode, not of ASCII. -/
  | unicode
  /-- `R`: a line also ends in a carriage return. -/
  | crlf
  /-- `x`: blanks and comments in the pattern are skipped. -/
  | verbose
deriving DecidableEq, Repr

/-- Flags set or cleared. -/
abbrev FlagChanges := List (Flag × Bool)

/-- The value the changes give a flag, if they touch it. -/
def FlagChanges.get? (changes : FlagChanges) (flag : Flag) : Option Bool :=
  changes.lookup flag

/-- The kinds of word boundary. -/
inductive Boundary where
  | either
  | neither
  | start
  | stop
  | startHalf
  | stopHalf
deriving DecidableEq, Repr

/-- The assertions of a pattern. -/
inductive AssertionForm where
  | caret
  | dollar
  | textStart
  | textEnd
  | boundary (kind : Boundary)
deriving DecidableEq, Repr

/-- The classes `\d`, `\s` and `\w`. -/
inductive ShortClass where
  | digit
  | blank
  | word
deriving DecidableEq, Repr

/-- The operators between parts of a bracketed class. -/
inductive SetOperator where
  | inter
  | diff
  | symmDiff
deriving DecidableEq, Repr

/-- A character class as it is written. -/
inductive ClassExpr where
  | empty
  | range (lo hi : Char)
  | short (kind : ShortClass) (negated : Bool)
  /-- A class such as `[:alpha:]`, by its ASCII ranges. -/
  | ascii (ranges : List (Nat × Nat)) (negated : Bool)
  /-- A class such as `\pL`, by its table. -/
  | property (set : CharSet) (negated : Bool)
  | bracket (negated : Bool) (body : ClassExpr)
  | union (a b : ClassExpr)
  | operation (operator : SetOperator) (a b : ClassExpr)
deriving DecidableEq, Repr

/-- A regular expression as it is written. -/
inductive Expr where
  | empty
  /-- A character, and whether it is written as a byte, `\xNN`. -/
  | literal (c : Char) (isByte : Bool)
  | dot
  | assertion (form : AssertionForm)
  | charClass (body : ClassExpr)
  | flags (changes : FlagChanges)
  /-- A group, whether it captures, and the flags set inside it. -/
  | group (capturing : Bool) (changes : FlagChanges) (body : Expr)
  | repetition (body : Expr) (least : Nat) (most : Option Nat) (greedy : Bool)
  | concat (a b : Expr)
  | alternation (a b : Expr)
deriving DecidableEq, Repr

namespace ClassExpr

/-- How deep brackets, unions and operators are nested, where `inUnion` says that a union around
the expression is already counted. -/
def depth (inUnion : Bool) : ClassExpr → Nat
  | bracket _ body => depth false body + 1
  | operation _ a b => max (depth false a) (depth false b) + 1
  | union a b => max (depth true a) (depth true b) + if inUnion then 0 else 1
  | _ => 0

end ClassExpr

namespace Expr

/-- The joints that a chain of parts is built with. -/
inductive Joint where
  | none
  | concat
  | alternation
deriving DecidableEq, Repr

/-- How deep the expression is nested, where a chain of parts counts once. -/
def depth (joint : Joint) : Expr → Nat
  | charClass body =>
    match body with
    | .bracket _ _ => body.depth false
    | _ => 0
  | group _ _ body => depth .none body + 1
  | repetition body _ _ _ => depth .none body + 1
  | concat a b =>
    max (depth .concat a) (depth .concat b) + if joint = .concat then 0 else 1
  | alternation a b =>
    max (depth .alternation a) (depth .alternation b) + if joint = .alternation then 0 else 1
  | _ => 0

/-- The deepest nesting that is accepted. -/
def depthLimit : Nat := 250

/-- The expression of parts in sequence. -/
def ofParts : List Expr → Expr
  | [] => empty
  | [part] => part
  | part :: parts => concat part (ofParts parts)

/-- The expression of alternatives, of which there is at least one. -/
def ofAlternatives : List Expr → Expr
  | [] => empty
  | [part] => part
  | part :: parts => alternation part (ofAlternatives parts)

end Expr

end SqlScript.Regex
