import SqlScript.Text.Range

/-!
# Blanks

A blank is a character with the Unicode property White_Space: the ASCII spaces and line breaks, the
next-line control, the no-break space and the typographic spaces. The information separators
U+001C to U+001F and the zero-width space are not blanks.
-/

namespace SqlScript

/-- The ranges of the Unicode property White_Space. -/
def blankRanges : RangeTable := [
  (0x0009, 0x000D), (0x0020, 0x0020), (0x0085, 0x0085), (0x00A0, 0x00A0), (0x1680, 0x1680),
  (0x2000, 0x200A), (0x2028, 0x2029), (0x202F, 0x202F), (0x205F, 0x205F), (0x3000, 0x3000)]

/-- Whether `c` has the property White_Space. -/
def isBlank (c : Char) : Bool :=
  blankRanges.contains c

end SqlScript
