/-!
# Tables of code point ranges

A property of characters is given by a sorted list of disjoint ranges of code points, both ends
included. The lookup walks the list and stops at the first range that starts past the character,
so a question about an ASCII character is answered within the first few ranges. Tables are also
written as text, `41-5A 61-7A AA`, and read by `RangeTable.ofString`. In large tables, which take
several lines, a range is written by its distance from the end of the range before and by how far it
reaches, `CNzHzBWa` (`RangeTable.ofLines`). Tables are united, intersected and taken from one
another range by range.
-/

namespace SqlScript

/-- Disjoint ranges of code points in increasing order, both ends included. -/
abbrev RangeTable := List (Nat × Nat)

/-- Whether the code point `n` lies in one of the ranges. -/
def RangeTable.containsCode : RangeTable → Nat → Bool
  | [], _ => false
  | (lo, hi) :: ranges, n =>
    if n < lo then false else if n ≤ hi then true else containsCode ranges n

/-- Whether the character `c` lies in one of the ranges. -/
def RangeTable.contains (table : RangeTable) (c : Char) : Bool :=
  table.containsCode c.toNat

/-- The value of a digit of a table written as text: a decimal digit or a capital letter. -/
def hexDigit (c : Char) : Nat :=
  if c.isDigit then c.toNat - '0'.toNat else c.toNat - 'A'.toNat + 10

/-- Reads ranges from the text after a start, which is `lo` once a dash has been read, and the
digits of a number so far. -/
def RangeTable.readFrom (lo : Option Nat) (value : Nat) : List Char → RangeTable
  | [] => [(lo.getD value, value)]
  | ' ' :: t => (lo.getD value, value) :: readFrom none 0 t
  | '-' :: t => readFrom (some value) 0 t
  | c :: t => readFrom lo (16 * value + hexDigit c) t

/-- The table of a text with ranges of hexadecimal numbers, one number for a single code point. -/
def RangeTable.ofString (s : String) : RangeTable :=
  readFrom none 0 s.toList

/-- The ranges whose numbers count from the end of the range before, and first from `last`. -/
def RangeTable.behind (last : Nat) : RangeTable → RangeTable
  | [] => []
  | (lo, hi) :: ranges => (last + lo, last + hi) :: behind (last + hi) ranges

/-- Reads ranges from letters, which are the digits of numbers to the base 26 : capital letters of
the distance from `last`, where the range before ends, and small letters of the distance from the
first to the last code point of the range. -/
def RangeTable.readBehind (last distance : Nat) (length : Option Nat) : List Char → RangeTable
  | [] => (length.map fun n => (last + distance, last + distance + n)).toList
  | c :: t =>
    if c.toNat < 'a'.toNat then
      match length with
      | none => readBehind last (26 * distance + (c.toNat - 'A'.toNat)) none t
      | some n =>
        (last + distance, last + distance + n) ::
          readBehind (last + distance + n) (c.toNat - 'A'.toNat) none t
    else readBehind last distance (some (26 * length.getD 0 + (c.toNat - 'a'.toNat))) t

/-- The table of lines of letters. -/
def RangeTable.ofLines (lines : List String) : RangeTable :=
  readBehind 0 0 none (lines.flatMap String.toList)

/-! ## Tables made from tables -/

/-- The last code point. -/
def RangeTable.lastCode : Nat := 0x10FFFF

/-- The range `(lo, hi)` and the ranges behind it, given by increasing start, with those joined that
meet or overlap. -/
def RangeTable.joinFrom (lo hi : Nat) : RangeTable → RangeTable
  | [] => [(lo, hi)]
  | (lo', hi') :: ranges =>
    if lo' ≤ hi + 1 then joinFrom lo (max hi hi') ranges
    else (lo, hi) :: joinFrom lo' hi' ranges

/-- The ranges, given by increasing start, with those joined that meet or overlap. -/
def RangeTable.join : RangeTable → RangeTable
  | [] => []
  | (lo, hi) :: ranges => joinFrom lo hi ranges

/-- Puts the range in front of the ranges that start later, from where on `later` goes on. -/
def RangeTable.mergeRange (range : Nat × Nat) (later : RangeTable → RangeTable) :
    RangeTable → RangeTable
  | [] => range :: later []
  | other :: ranges =>
    if range.1 ≤ other.1 then range :: later (other :: ranges)
    else other :: mergeRange range later ranges

/-- The ranges of both tables by increasing start. -/
def RangeTable.merge : RangeTable → RangeTable → RangeTable
  | [], b => b
  | range :: a, b => mergeRange range (merge a) b

/-- The table of the code points. -/
def RangeTable.ofCodes (codes : List Nat) : RangeTable :=
  join (codes.mergeSort.map fun n => (n, n))

/-- The code points of either table. -/
def RangeTable.union (a b : RangeTable) : RangeTable :=
  join (a.merge b)

/-- The code points from `start` on that are in none of the ranges. -/
def RangeTable.gapsFrom (start : Nat) : RangeTable → RangeTable
  | [] => if start ≤ lastCode then [(start, lastCode)] else []
  | (lo, hi) :: ranges =>
    if start < lo then (start, lo - 1) :: gapsFrom (hi + 1) ranges else gapsFrom (hi + 1) ranges

/-- The code points that are not in the table. -/
def RangeTable.compl (a : RangeTable) : RangeTable :=
  gapsFrom 0 a

/-- The code points of the first table that are not in the second. -/
def RangeTable.diff (a b : RangeTable) : RangeTable :=
  (a.compl.union b).compl

/-- The code points of both tables. -/
def RangeTable.inter (a b : RangeTable) : RangeTable :=
  (a.compl.union b.compl).compl

/-- The code points of any of the tables. -/
def RangeTable.unions (tables : List RangeTable) : RangeTable :=
  tables.foldl union []

end SqlScript
