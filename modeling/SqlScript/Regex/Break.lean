import SqlScript.Regex.DerivedProperty
import SqlScript.Regex.Script

/-!
# Classes for text boundaries

Where a text may be cut into user-perceived characters, words and sentences depends on the classes
of the characters on both sides. `GraphemeBreak.classes`, `WordBreak.classes` and
`SentenceBreak.classes` hold the three classifications of Unicode 16, built by its rules. A
character has at most one class of each kind, and most have none.
-/

namespace SqlScript.Regex

/-! ## Sets that several classes refer to -/

/-- The characters of a script. -/
def inScript (name : String) : RangeTable :=
  (tableNamed? scriptTables name.toList).getD []

/-- The marks that precede the numbers or letters they belong to, and letters written before the
consonant they follow. -/
def prependedMarks : RangeTable :=
  (withProperty "prependedconcatenationmark").union
    (.ofString "D4E 111C2-111C3 113D1 1193F 11941 11A3A 11A84-11A89 11D46 11F02")

/-- The digits, the decimal separator of Arabic and the marks that precede numbers. -/
def numericMarks : RangeTable :=
  (inCategories ["nd"]).union
    (.ofString "600-605 66B 6DD 890-891 8E2 19DA 110BD 110CD")

/-- The letters of the scripts that are written without blanks between words. -/
def unspacedLetters : RangeTable :=
  ["E01-E30 E32-E33 E40-E46 E81-E82 E84 E86-E8A E8C-EA3 EA5 EA7-EB0 EB2-EB3 EBD EC0-EC4 EC6",
    "EDC-EDF 1000-102A 103F 1050-1055 105A-105D 1061 1065-1066 106E-1070 1075-1081 108E 1780-17B3",
    "17D7 17DC 1950-196D 1970-1974 1980-19AB 19B0-19C9 1A20-1A54 1AA7 A9E0-A9E4 A9E6-A9EF",
    "A9FA-A9FE AA60-AA76 AA7A AA7E-AAAF AAB1 AAB5-AAB6 AAB9-AABD AAC0 AAC2 AADB-AADD 11700-1171A",
    "11740-11746"].flatMap RangeTable.ofString

/-- The zero-width joiner. -/
def joiner : RangeTable :=
  [(0x200D, 0x200D)]

namespace GraphemeBreak

/-- What extends the character before it. -/
def extend : RangeTable :=
  (DerivedProperty.graphemeExtend.union (withProperty "emojimodifier")).diff joiner

/-- Control and format characters, and the reserved ones that are to be ignored. -/
def control : RangeTable :=
  (RangeTable.union (inCategories ["zl", "zp", "cc", "cf"])
    ((inCategories ["cn"]).inter DerivedProperty.defaultIgnorable)).diff
    (.unions [.ofString "A D 200C-200D", withProperty "prependedconcatenationmark", extend])

/-- The spacing marks that stand apart from the character before them. -/
def looseMarks : RangeTable :=
  ["102B-102C 1038 1062-1064 1067-106D 1083 1087-108C 108F 109A-109C 1A61 1A63-1A64 AA7B AA7D",
    "11720-11721"].flatMap RangeTable.ofString

/-- Spacing marks that belong to the character before them. -/
def spacingMark : RangeTable :=
  ((inCategories ["mc"]).union (.ofString "E33 EB3")).diff (extend.union looseMarks)

/-- The Hangul syllables made of a leading consonant and a vowel; 27 syllables with a trailing
consonant follow each. -/
def leadVowel : RangeTable :=
  (List.range 399).map fun i => (0xAC00 + 28 * i, 0xAC00 + 28 * i)

/-- The Hangul syllables with a trailing consonant. -/
def leadVowelTrail : RangeTable :=
  (List.range 399).map fun i => (0xAC01 + 28 * i, 0xAC1B + 28 * i)

/-- The classes by their names. -/
def classes : List (List String × RangeTable) := [
  (["cn", "control"], control),
  (["cr"], [(0x0D, 0x0D)]),
  (["ex", "extend"], extend),
  (["l"], .ofString "1100-115F A960-A97C"),
  (["lf"], [(0x0A, 0x0A)]),
  (["lv"], leadVowel),
  (["lvt"], leadVowelTrail),
  (["pp", "prepend"], prependedMarks),
  (["ri", "regionalindicator"], withProperty "regionalindicator"),
  (["sm", "spacingmark"], spacingMark),
  (["t"], .ofString "11A8-11FF D7CB-D7FB"),
  (["v"], .ofString "1160-11A7 D7B0-D7C6 16D63 16D67-16D6A"),
  (["zwj"], joiner)]

end GraphemeBreak

namespace WordBreak

/-- What extends the character before it. -/
def extend : RangeTable :=
  (RangeTable.unions [DerivedProperty.graphemeExtend, inCategories ["mc"],
    withProperty "emojimodifier"]).diff joiner

/-- Format characters. -/
def format : RangeTable :=
  (inCategories ["cf"]).diff
    (.unions [.ofString "200B-200D", extend, prependedMarks])

/-- Katakana, and the marks that it shares with Hiragana. -/
def katakana : RangeTable :=
  (inScript "katakana").union (.ofString "3031-3035 309B-309C 30A0 30FC FF70")

/-- The letters of Hebrew. -/
def hebrewLetter : RangeTable :=
  (inScript "hebrew").inter (inCategories ["lo"])

/-- The symbols that are used like letters. -/
def letterLike : RangeTable :=
  ["B8 2C2-2C5 2D2-2D7 2DE-2DF 2E5-2EB 2ED 2EF-2FF 55A-55C 55E 58A 5F3 70F A708-A716 A720-A721",
    "A789-A78A AB5B"].flatMap RangeTable.ofString

/-- The letters of the scripts that are written with blanks between words. -/
def letter : RangeTable :=
  (letters.union letterLike).diff
    (.unions [withProperty "ideographic", katakana, unspacedLetters, inScript "hiragana", extend,
      hebrewLetter])

/-- The classes by their names. -/
def classes : List (List String × RangeTable) := [
  (["cr"], [(0x0D, 0x0D)]),
  (["dq", "doublequote"], [(0x22, 0x22)]),
  (["ex", "extendnumlet"], (inCategories ["pc"]).union [(0x202F, 0x202F)]),
  (["extend"], extend),
  (["fo", "format"], format),
  (["hl", "hebrewletter"], hebrewLetter),
  (["ka", "katakana"], katakana),
  (["le", "aletter"], letter),
  (["lf"], [(0x0A, 0x0A)]),
  (["mb", "midnumlet"], .ofString "2E 2018-2019 2024 FE52 FF07 FF0E"),
  (["ml", "midletter"], .ofString "3A B7 387 55F 5F4 2027 FE13 FE55 FF1A"),
  (["mn", "midnum"],
    .ofString "2C 3B 37E 589 60C-60D 66C 7F8 2044 FE10 FE14 FE50 FE54 FF0C FF1B"),
  (["nl", "newline"], .ofString "B-C 85 2028-2029"),
  (["nu", "numeric"], numericMarks),
  (["ri", "regionalindicator"], withProperty "regionalindicator"),
  (["sq", "singlequote"], [(0x27, 0x27)]),
  (["wsegspace"], (inCategories ["zs"]).diff (.ofString "A0 2007 202F")),
  (["zwj"], joiner)]

end WordBreak

namespace SentenceBreak

/-- What extends the character before it. -/
def extend : RangeTable :=
  .unions [DerivedProperty.graphemeExtend, inCategories ["mc"], joiner]

/-- Format characters. -/
def format : RangeTable :=
  (inCategories ["cf"]).diff (.unions [.ofString "200C-200D", extend, numericMarks])

/-- Blanks that end no paragraph. -/
def space : RangeTable :=
  blankRanges.diff (.ofString "A D 85 2028-2029")

/-- Small letters. Those of Georgian count as letters without case. -/
def lower : RangeTable :=
  DerivedProperty.lowercase.diff
    (DerivedProperty.graphemeExtend.union (.ofString "10D0-10FA 10FD-10FF"))

/-- Capital letters. Those of Georgian count as letters without case. -/
def upper : RangeTable :=
  (DerivedProperty.uppercase.union (inCategories ["lt"])).diff
    (.ofString "1C90-1CBA 1CBD-1CBF")

/-- The other letters. -/
def otherLetter : RangeTable :=
  (letters.union [(0x5F3, 0x5F3)]).diff (.unions [lower, upper, extend])

/-- The full stops, which also end abbreviations. -/
def fullStop : RangeTable :=
  .ofString "2E 2024 FE52 FF0E"

/-- The marks that end a sentence for sure. -/
def terminator : RangeTable :=
  (withProperty "sentenceterminal").diff fullStop

/-- Brackets and quotation marks. -/
def close : RangeTable :=
  ((inCategories ["ps", "pe", "pi", "pf"]).union
    (.ofString "22 27 275B-2760 2E00-2E01 2E06-2E08 2E0B 1F676-1F678")).diff
    (fullStop.union terminator)

/-- The marks after which a sentence goes on. -/
def continuation : RangeTable :=
  ["2C-2D 3A-3B 37E 55D 60C-60D 7F8 1802 1808 2013-2014 3001 FE10-FE11 FE13-FE14 FE31-FE32",
    "FE50-FE51 FE54-FE55 FE58 FE63 FF0C-FF0D FF1A-FF1B FF64"].flatMap RangeTable.ofString

/-- The classes by their names. -/
def classes : List (List String × RangeTable) := [
  (["at", "aterm"], fullStop),
  (["cl", "close"], close),
  (["cr"], [(0x0D, 0x0D)]),
  (["ex", "extend"], extend),
  (["fo", "format"], format),
  (["le", "oletter"], otherLetter),
  (["lf"], [(0x0A, 0x0A)]),
  (["lo", "lower"], lower),
  (["nu", "numeric"], numericMarks.union [(0x66C, 0x66C)]),
  (["sc", "scontinue"], continuation),
  (["se", "sep"], .ofString "85 2028-2029"),
  (["sp"], space),
  (["st", "sterm"], terminator),
  (["up", "upper"], upper)]

end SentenceBreak

end SqlScript.Regex
