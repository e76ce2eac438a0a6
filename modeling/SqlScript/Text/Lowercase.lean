import SqlScript.Regex.DerivedProperty

/-!
# Full lower case

`Text.lowercase` is the full mapping of Unicode 17. Apart from the single-character mappings it
knows two rules: the dotted capital I becomes `i` and a combining dot, and a capital sigma at the
end of a word becomes the final small sigma. A sigma ends a word when a cased letter stands before
it and none stands after it, with case-ignorable characters skipped in both directions.
-/

namespace SqlScript

/-- The ranges of the property Cased. Version 17 took one letter out and brought others. -/
def casedRanges : RangeTable :=
  (Regex.DerivedProperty.cased.union
    (.ofString "A7CE-A7CF A7D2 A7D4 A7F1 16EA0-16EB8 16EBB-16ED3")).diff [(0x295, 0x295)]

/-- The ranges of the property Case_Ignorable. -/
def caseIgnorableRanges : RangeTable :=
  Regex.DerivedProperty.caseIgnorable.union
    (.ofLines ["KDZoDlCBKOaBMYMaCBbESBaCcCaYDaBFCJbBTBCaDaIbGaKa"])

/-- Whether `c` has an upper and a lower case, or is of one of them. -/
def isCased (c : Char) : Bool :=
  casedRanges.contains c

/-- Whether `c` is skipped when the letters around a sigma are looked for. -/
def isCaseIgnorable (c : Char) : Bool :=
  caseIgnorableRanges.contains c

/-- The lower case of a character on its own. -/
def lowercaseChar (c : Char) : Text :=
  if c == '\u0130' then ['i', '\u0307']
  else [Char.ofNat (CaseRun.mapCode lowercaseRuns c.toNat)]

/-- Whether the first character that is not case-ignorable is cased. -/
def startsCased (t : Text) : Bool :=
  ((t.dropWhile isCaseIgnorable).head?.map isCased).getD false

/-- The small sigma for a capital sigma between the texts `before`, read backwards, and `after`. -/
def smallSigma (before after : Text) : Char :=
  if startsCased before && !startsCased after then '\u03C2' else '\u03C3'

namespace Text

/-- The lower case of a text that follows `before`, which is read backwards. -/
def lowercaseFrom (before : Text) : Text → Text
  | [] => []
  | c :: t =>
    (if c == '\u03A3' then [smallSigma before t] else lowercaseChar c) ++
      lowercaseFrom (c :: before) t

/-- The lower case of a text. -/
def lowercase (t : Text) : Text :=
  lowercaseFrom [] t

end Text

end SqlScript
