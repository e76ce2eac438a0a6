import SqlScript.Regex.Program
import SqlScript.Regex.Size
import SqlScript.Token.Basic

/-!
# Search patterns

A pattern is a run of tokens in which `@name` stands for any text and `@(regex)name` for text that
a regular expression describes. `Pattern.compile` turns it into blocks. A free variable, one without
a regular expression, must have a literal on both sides: before it somewhere, and directly after it
to stop at.
-/

namespace SqlScript

/-- What the text of a variable must match. Case does not count. -/
structure Constraint where
  /-- The regular expression as it is written. -/
  source : Text
  /-- The expression for a whole text. -/
  whole : Regex
  /-- The expression for the start of a text. -/
  lead : Regex
deriving DecidableEq, Repr

namespace Constraint

/-- The constraint of a regular expression, if it is one. -/
def ofSource? (source : Text) : Option Constraint := do
  let whole ← Regex.parse? ("(?i)^(?:".toList ++ source ++ ")$".toList)
  let lead ← Regex.parse? ("(?i)^(?:".toList ++ source ++ ")".toList)
  return ⟨source, whole, lead⟩

/-- Whether the whole text matches. -/
def matchesWhole (constraint : Constraint) (t : Text) : Bool :=
  (constraint.whole.find? t).isSome

/-- The size of the part at the start of the text that matches. -/
def matchLead? (constraint : Constraint) (t : Text) : Option Nat :=
  constraint.lead.find? t

end Constraint

/-- A unit of a pattern. -/
inductive PatternBlock where
  /-- A token, in small ASCII letters. -/
  | literal (text : Text)
  /-- A variable with the name after its `@`. -/
  | placeholder (name : Text) (constraint : Option Constraint)
deriving DecidableEq, Repr

namespace PatternBlock

/-- Whether the block is a variable. -/
def isPlaceholder : PatternBlock → Bool
  | placeholder _ _ => true
  | literal _ => false

/-- Whether the block is a variable without a constraint. -/
def isFree : PatternBlock → Bool
  | placeholder _ none => true
  | _ => false

/-- The block of a single token with the given text. -/
def ofText : Text → PatternBlock
  | '@' :: c :: name => placeholder (c :: name) none
  | text => literal text

end PatternBlock

/-- A search pattern. -/
structure Pattern where
  source : Text
  blocks : List PatternBlock
deriving DecidableEq, Repr

namespace Pattern

/-- The parenthesis that closes a constraint, and the tokens after it. A backslash takes the
meaning of a parenthesis that is the next token. -/
def closing? (depth : Nat) (escaped : Bool) : List Token → Option (Token × List Token)
  | [] => none
  | token :: later =>
    if token.text == ['\\'] then closing? depth (!escaped) later
    else if token.text == ['('] && !escaped then closing? (depth + 1) false later
    else if token.text == [')'] && !escaped then
      if depth == 0 then some (token, later) else closing? (depth - 1) false later
    else closing? depth false later

theorem length_lt_of_closing? {depth : Nat} {escaped : Bool} {tokens rest : List Token}
    {token : Token} (h : closing? depth escaped tokens = some (token, rest)) :
    rest.length < tokens.length := by
  induction tokens generalizing depth escaped with
  | nil => simp [closing?] at h
  | cons head later ih =>
    simp only [closing?] at h
    split at h
    · exact Nat.lt_succ_of_lt (ih h)
    · split at h
      · exact Nat.lt_succ_of_lt (ih h)
      · split at h
        · split at h
          · simp only [Option.some.injEq, Prod.mk.injEq] at h
            simp [h.2]
          · exact Nat.lt_succ_of_lt (ih h)
        · exact Nat.lt_succ_of_lt (ih h)

/-- Whether the token can name the constraint that `close` ends. -/
def isName (close token : Token) : Bool :=
  token.start == close.stop && token.isIdentifier

/-- The constraint between two parentheses of a pattern. -/
def constraintBetween (source : Text) (paren close : Token) : Except Error Constraint := do
  let regex ← source.slice paren.stop close.start
  match Constraint.ofSource? regex with
  | some constraint => return constraint
  | none => .error (.invalidRegex source)

/-- The blocks of the tokens of a pattern. -/
def blocksOf (source : Text) (tokens : List Token) : Except Error (List PatternBlock) :=
  match tokens with
  | [] => .ok []
  | [token] => .ok [.ofText token.text]
  | token :: paren :: inside =>
    if token.text == ['@'] && paren.text == ['('] then
      match _h : closing? 0 false inside with
      | none => .error (.invalidPattern source .unbalanced)
      | some (_, []) => .error (.invalidPattern source .unnamed)
      | some (close, name :: rest) =>
        if isName close name then do
          let constraint ← constraintBetween source paren close
          let blocks ← blocksOf source rest
          return .placeholder name.text (some constraint) :: blocks
        else .error (.invalidPattern source .unnamed)
    else do
      let blocks ← blocksOf source (paren :: inside)
      return .ofText token.text :: blocks
termination_by tokens.length
decreasing_by
  · have := length_lt_of_closing? _h
    simp only [List.length_cons] at *
    omega
  · simp

/-- Whether a free variable is directly followed by a variable. -/
def hasFreeBeforeVariable : List PatternBlock → Bool
  | block :: next :: blocks =>
    (block.isFree && next.isPlaceholder) || hasFreeBeforeVariable (next :: blocks)
  | _ => false

/-- The pattern whose tokens are the given words, in small letters. -/
def ofWords (words : List String) : Pattern where
  source := " ".toList.intercalate (words.map String.toList)
  blocks := words.map fun word => .ofText word.toList

/-- The pattern of a text. -/
def compile (source : Text) : Except Error Pattern :=
  match tokens source.toLowerAscii with
  | [] => .error (.invalidPattern source .empty)
  | tokens => do
    let blocks ← blocksOf source tokens
    if blocks.head?.any PatternBlock.isFree || blocks.getLast?.any PatternBlock.isFree then
      .error (.invalidPattern source .freeAtEdge)
    else if hasFreeBeforeVariable blocks then
      .error (.invalidPattern source .freeBeforeVariable)
    else return ⟨source, blocks⟩

end Pattern

end SqlScript
