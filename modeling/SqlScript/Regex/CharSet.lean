import SqlScript.Regex.Folding
import SqlScript.Regex.WordChar
import SqlScript.Text.Basic

/-!
# Sets of characters

A set of characters is given by how it is put together from ranges. `CharSet.has` decides
membership. A folded set holds every character that is equal, up to case, to one of its members.
-/

namespace SqlScript

/-- A set of characters. -/
inductive CharSet where
  | empty
  /-- The code points from `lo` to `hi`. -/
  | range (lo hi : Nat)
  /-- The code points of a table. -/
  | table (ranges : RangeTable)
  /-- The decimal digits of all scripts. -/
  | digit
  /-- The blanks. -/
  | blank
  /-- The word characters. -/
  | word
  | union (a b : CharSet)
  | inter (a b : CharSet)
  | diff (a b : CharSet)
  | symmDiff (a b : CharSet)
  | compl (a : CharSet)
  /-- The members and all that equal one of them under simple case folding. -/
  | folded (a : CharSet)
  /-- The members and all that equal one of them up to ASCII case. -/
  | foldedAscii (a : CharSet)
deriving DecidableEq, Repr

namespace CharSet

/-- The code point of the other case of an ASCII letter, and the code point itself. -/
def asciiOrbit (n : Nat) : List Nat :=
  if 0x41 ≤ n && n ≤ 0x5A then [n, n + 0x20]
  else if 0x61 ≤ n && n ≤ 0x7A then [n, n - 0x20]
  else [n]

/-- Whether the code point belongs to the set. -/
def hasCode : CharSet → Nat → Bool
  | empty, _ => false
  | range lo hi, n => lo ≤ n && n ≤ hi
  | table ranges, n => ranges.containsCode n
  | digit, n => Regex.isDecimalDigit (Char.ofNat n)
  | blank, n => isBlank (Char.ofNat n)
  | word, n => Regex.isWord (Char.ofNat n)
  | union a b, n => a.hasCode n || b.hasCode n
  | inter a b, n => a.hasCode n && b.hasCode n
  | diff a b, n => a.hasCode n && !b.hasCode n
  | symmDiff a b, n => a.hasCode n != b.hasCode n
  | compl a, n => !a.hasCode n
  | folded a, n => (Regex.foldOrbit n).any fun m => a.hasCode m
  | foldedAscii a, n => (asciiOrbit n).any fun m => a.hasCode m

/-- Whether the character belongs to the set. -/
def has (s : CharSet) (c : Char) : Bool :=
  s.hasCode c.toNat

/-- The set of one character. -/
def single (c : Char) : CharSet :=
  range c.toNat c.toNat

/-- The set of the given ranges of code points. -/
def ofRanges (ranges : List (Nat × Nat)) : CharSet :=
  ranges.foldl (fun s (lo, hi) => union s (range lo hi)) empty

/-- Every character. -/
def full : CharSet :=
  compl empty

/-- Whether no code point from U+0080 to U+00FF belongs to the set. -/
def isAscii (s : CharSet) : Bool :=
  (List.range 0x80).all fun n => !s.hasCode (0x80 + n)

/-- The ASCII members of the set. -/
def ascii (s : CharSet) : CharSet :=
  inter s (range 0 0x7F)

end CharSet

end SqlScript
