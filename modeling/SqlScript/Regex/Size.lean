import Std.Data.HashSet
import SqlScript.Regex.Basic

/-!
# How large an expression may be

An expression is refused when its automaton gets larger than ten mebibytes. The automaton works on
the bytes of UTF-8 and is built twice, to read a text forward and backward; both must fit. Repeated
parts are written out, so a count in a pattern multiplies the size of what it repeats. `Regex.size`
adds up the states, the transitions and the alternatives of both automata without building them.
-/

namespace SqlScript

/-! ## The ranges of a set -/

/-- The ranges of a set of characters. -/
def CharSet.ranges : CharSet → RangeTable
  | empty => []
  | range lo hi => if lo ≤ hi then [(lo, hi)] else []
  | table ranges => ranges
  | digit => Regex.digitRanges
  | blank => blankRanges
  | word => Regex.wordRanges
  | union a b => a.ranges.union b.ranges
  | inter a b => a.ranges.inter b.ranges
  | diff a b => a.ranges.diff b.ranges
  | symmDiff a b => (a.ranges.diff b.ranges).union (b.ranges.diff a.ranges)
  | compl a => a.ranges.compl
  | folded a => Regex.foldRanges a.ranges
  | foldedAscii a =>
    .unions [a.ranges,
      (a.ranges.inter [(0x41, 0x5A)]).map fun (lo, hi) => (lo + 0x20, hi + 0x20),
      (a.ranges.inter [(0x61, 0x7A)]).map fun (lo, hi) => (lo - 0x20, hi - 0x20)]

namespace Regex

/-! ## Ranges as sequences of byte ranges -/

/-- A range for each byte of an encoded character. -/
abbrev ByteRanges := List (Nat × Nat)

/-- The digits to base 64 of the numbers from `lo` to `hi`, the leading one and `rest` others, as
sequences of ranges in increasing order. -/
def digitSequences : Nat → Nat → Nat → List ByteRanges
  | 0, lo, hi => [[(lo, hi)]]
  | rest + 1, lo, hi =>
    let base := 64 ^ (rest + 1)
    let first := lo / base
    let last := hi / base
    if first = last then
      (digitSequences rest (lo % base) (hi % base)).map ((first, first) :: ·)
    else
      let startsFull := lo % base = 0
      let endsFull := hi % base = base - 1
      let head :=
        if startsFull then []
        else (digitSequences rest (lo % base) (base - 1)).map ((first, first) :: ·)
      let tail :=
        if endsFull then [] else (digitSequences rest 0 (hi % base)).map ((last, last) :: ·)
      let fullFirst := if startsFull then first else first + 1
      let fullEnd := if endsFull then last + 1 else last
      let full :=
        if fullFirst < fullEnd then
          [(fullFirst, fullEnd - 1) :: List.replicate (rest + 1) (0, 63)]
        else []
      head ++ full ++ tail

/-- The classes of code points whose encodings are equally long: the first and last of them, the
number of continuation bytes and the mark of the leading byte. Surrogates are left out. -/
def encodingClasses : List (Nat × Nat × Nat × Nat) := [
  (0x0000, 0x007F, 0, 0x00), (0x0080, 0x07FF, 1, 0xC0), (0x0800, 0xD7FF, 2, 0xE0),
  (0xE000, 0xFFFF, 2, 0xE0), (0x10000, 0x10FFFF, 3, 0xF0)]

/-- The byte ranges that spell the code points from `lo` to `hi`. -/
def byteSequences (lo hi : Nat) : List ByteRanges :=
  encodingClasses.flatMap fun (first, last, rest, mark) =>
    let lo := max lo first
    let hi := min hi last
    if hi < lo then []
    else
      (digitSequences rest lo hi).map fun digits =>
        match digits with
        | [] => []
        | (a, b) :: later => (mark + a, mark + b) :: later.map fun (a, b) => (0x80 + a, 0x80 + b)

/-! ## Sizes -/

/-- The bytes that the two automata of an expression take. -/
structure Size where
  forward : Nat
  backward : Nat
deriving DecidableEq, Repr

namespace Size

/-- The same number of bytes in both automata. -/
def both (n : Nat) : Size := ⟨n, n⟩

/-- The sizes of two parts together. -/
def add (a b : Size) : Size := ⟨a.forward + b.forward, a.backward + b.backward⟩

/-- The size of `n` copies. -/
def scale (n : Nat) (a : Size) : Size := ⟨n * a.forward, n * a.backward⟩

end Size

/-- The bytes of a state. -/
def stateSize : Nat := 32

/-- The bytes of a transition on a range of bytes. -/
def transitionSize : Nat := 8

/-- The bytes of one alternative of a state that chooses. -/
def alternativeSize : Nat := 4

/-- The bytes of a state that chooses between two places. -/
def forkSize : Nat := stateSize + 2 * alternativeSize

/-- How many ranges two sequences have in common at their start. -/
def commonStart : ByteRanges → ByteRanges → Nat
  | a :: s, b :: t => if a = b then commonStart s t + 1 else 0
  | _, _ => 0

/-- How many starts of the sequences are different, where `previous` is the sequence before them. -/
def distinctStarts (previous : ByteRanges) : List ByteRanges → Nat
  | [] => 0
  | sequence :: later =>
    sequence.length - commonStart previous sequence + distinctStarts sequence later

/-- What the sequences go on with after each of their first ranges, for runs of sequences that have
the first range in common. -/
def continuations : List ByteRanges → List ((Nat × Nat) × List ByteRanges)
  | [] => []
  | [] :: later => continuations later
  | (range :: rest) :: later =>
    match continuations later with
    | (next, rests) :: groups =>
      if next = range then (range, rest :: rests) :: groups
      else (range, [rest]) :: (next, rests) :: groups
    | [] => [(range, [rest])]

/-- What is left of the sequences after each of their starts, as far as `depth` ranges. -/
def residuals : Nat → List ByteRanges → List (List ByteRanges)
  | 0, _ => []
  | depth + 1, sequences =>
    sequences :: (continuations sequences).flatMap fun (_, rests) =>
      if rests = [[]] then [] else residuals depth rests

/-- The size of the states of a forward automaton for the sequences. Starts that are continued alike
share a state. -/
def sharedStatesSize (sequences : List ByteRanges) : Nat :=
  let states := (residuals 4 sequences).foldl Std.HashSet.insert
    (∅ : Std.HashSet (List ByteRanges))
  states.fold (fun n state => n + stateSize + transitionSize * (continuations state).length) 0

/-- The size of the automata of one character. -/
def rangesSize (ranges : RangeTable) : Size :=
  match ranges with
  | [] => .both stateSize
  | (first, last) :: later =>
    if later.isEmpty && first = last then .both (stateSize * (Char.ofNat first).utf8Size)
    else if ranges.all fun range => range.2 < 0x80 then
      .both (2 * stateSize + transitionSize * ranges.length)
    else
      let sequences := ranges.flatMap fun (lo, hi) => byteSequences lo hi
      { forward := stateSize + sharedStatesSize sequences
        backward := 2 * stateSize + stateSize * distinctStarts [] sequences +
          alternativeSize * sequences.length }

/-- Whether the expression consists of nothing. -/
def isNothing : Regex → Bool
  | empty => true
  | seq a b => a.isNothing && b.isNothing
  | _ => false

/-- Whether the expression takes at least one character. -/
def isNonempty : Regex → Bool
  | empty => false
  | one _ => true
  | assertion _ => false
  | seq a b => a.isNonempty || b.isNonempty
  | alt a b => a.isNonempty && b.isNonempty
  | repetition body least _ _ => 0 < least && body.isNonempty
  | capture body => body.isNonempty

/-- The size of a repetition, given the size of its body. -/
def repetitionSize (body : Size) (isNonempty : Bool) (least : Nat) (most : Option Nat) : Size :=
  match most, least with
  | none, 0 => body.add (.both (if isNonempty then forkSize else 2 * forkSize + stateSize))
  | none, least + 1 => (body.scale (least + 1)).add (.both forkSize)
  | some 1, 0 => body.add (.both (forkSize + stateSize))
  | some most, least =>
    if most = least then if most = 0 then .both stateSize else body.scale most
    else
      let required := if least = 0 then .both stateSize else body.scale least
      (required.add (.both stateSize)).add ((body.add (.both forkSize)).scale (most - least))

/-- The size of an expression, as a whole and as alternatives of a choice around it. -/
structure Measure where
  total : Size
  /-- The number of alternatives. -/
  count : Nat
  /-- The size of the alternatives. -/
  alternatives : Size
  /-- The characters, where every alternative is a single one. -/
  letters : Option CharSet

/-- The measure of an expression that is no choice. -/
def Measure.ofSize (total : Size) : Measure := ⟨total, 1, total, none⟩

/-- The size of an expression. A choice between single characters is a set of characters. -/
def measure : Regex → Measure
  | empty => .ofSize (.both stateSize)
  | one set => { Measure.ofSize (rangesSize set.ranges) with letters := some set }
  | assertion _ => .ofSize (.both stateSize)
  | seq a b =>
    if a.isNothing then b.measure
    else if b.isNothing then a.measure
    else .ofSize (a.measure.total.add b.measure.total)
  | alt a b =>
    let left := a.measure
    let right := b.measure
    let count := left.count + right.count
    let alternatives := left.alternatives.add right.alternatives
    match left.letters, right.letters with
    | some s, some t =>
      ⟨rangesSize (CharSet.union s t).ranges, count, alternatives, some (.union s t)⟩
    | _, _ =>
      let choice := .both (2 * stateSize + alternativeSize * count)
      ⟨alternatives.add choice, count, alternatives, none⟩
  | repetition body least most _ =>
    .ofSize (repetitionSize body.measure.total body.isNonempty least most)
  | capture body => .ofSize (body.measure.total.add ⟨2 * stateSize, 0⟩)

/-- The size of the automata, with the states around the expression. An engine that takes what
alternatives have in common out of them, or that counts its tables for sets of characters as well,
comes to another size. It may accept `(?:ab|ac){40000}`, which is too large here, and refuse
`\w{210}`, which is not. -/
def size (regex : Regex) : Size :=
  regex.measure.total.add ⟨4 * stateSize, 2 * stateSize⟩

/-- The largest size that is accepted: ten mebibytes. -/
def sizeLimit : Nat := 10 * 1024 * 1024

/-- The regular expression of a pattern. -/
def parse? (pattern : Text) : Option Regex := do
  let expr ← Expr.read? pattern
  let (regex, _) ← expr.lower? {}
  if regex.size.forward ≤ sizeLimit && regex.size.backward ≤ sizeLimit then some regex else none

end Regex

end SqlScript
