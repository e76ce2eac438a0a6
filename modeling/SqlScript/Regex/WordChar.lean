import SqlScript.Regex.DerivedProperty

/-!
# Digits and word characters

In a regular expression a digit is a decimal digit of any script, and a word is made of letters,
combining marks, digits, connecting punctuation and the two joiners. Both follow Unicode 16.
-/

namespace SqlScript.Regex

/-- The ranges of the digits. -/
def digitRanges : RangeTable :=
  inCategories ["nd"]

/-- The ranges of the word characters. -/
def wordRanges : RangeTable :=
  .unions [letters, inCategories ["mn", "mc", "me", "nd", "pc"],
    withProperty "joincontrol"]

/-- Whether `c` is a decimal digit of some script. -/
def isDecimalDigit (c : Char) : Bool :=
  digitRanges.contains c

/-- Whether `c` is a word character. -/
def isWord (c : Char) : Bool :=
  wordRanges.contains c

end SqlScript.Regex
