import SqlScript.Regex.BinaryProperty
import SqlScript.Regex.Category
import SqlScript.Text.CaseRun

/-!
# Derived properties

Many properties of characters follow from general categories and from other properties, and some
categories from the letters, the numerals and the case mappings. They are put together here by the
rules of the Unicode standard for its version 16.
-/

namespace SqlScript.Regex

/-! ## General categories -/

/-- The characters with a property that follows from no other. -/
def withProperty (name : String) : RangeTable :=
  (tableNamed? binaryPropertyTables name.toList).getD []

/-- The code points that are no characters by themselves. -/
def surrogates : RangeTable :=
  [(0xD800, 0xDFFF)]

/-- The letters that came with version 17. -/
def laterLetters : RangeTable := .ofLines [
  "DGHaBLLaEYaCGRQbDaCaBDaBKWDzCBKcBZbESBhWNbrBEPHyDyLBeJCKhBXQvDUekBHQKbeCvJbDAWHfIWHlBGFBgjh"]

/-- Letters, letter numbers, dependent vowel signs and combining letters. -/
def letters : RangeTable :=
  letterRanges.diff laterLetters

/-- The pairs of a character and its lower case. -/
def casePairs : List (Nat × Nat) :=
  (lowercaseRuns.flatMap fun run => run.codes.map fun n => (n, run.image n)).filter fun pair =>
    letters.containsCode pair.1

/-- The characters with a lower case of their own. -/
def pairedCapitals : RangeTable :=
  .ofCodes (casePairs.map Prod.fst)

/-- The characters that are the lower case of another one. -/
def pairedSmalls : RangeTable :=
  .ofCodes (casePairs.map Prod.snd)

/-- Roman numerals and letters in circles, which have both cases and are no letters. -/
def casedSymbols : RangeTable :=
  [(0x2160, 0x217F), (0x24B6, 0x24E9)]

/-- The capital letters : those with a small letter, and others. -/
def capitalLetters : RangeTable :=
  (pairedCapitals.diff
    (casedSymbols.union ((tableNamed? categoryTables "lt".toList).getD []))).union (.ofLines [
    "LSaZYcLBIaFaEcDcDaEeHaEaEbDbCaLbGaGIQLzBBzBBzBBaCbDaDbDdChBBzBBbCdDhCgBCbCdCeCaEgBCzBBzBBzBBz",
    "BBzBBzBFyBIyBIyBIyBIyBIa"])

/-- The small letters : those with a capital letter, and others. -/
def smallLetters : RangeTable :=
  (pairedSmalls.diff casedSymbols).union (.ofLines [
    "GZaEUaHaRaCCaOaBDbPaEaBYaBXaTfBCaDaCaDcDaFaGbCaDbCgCbCaDcHeCaChDqIRaBGaSaObEbBAbEaHaNSaBNb",
    "ISEiEQbrCMmDcCpClJShCaGVaCaCaCaDOaCaCbHaEaCaCbLbDbLcCbLaCaCbKPaEbEaBCaFaFaDbJdEFWaDaDeEBa",
    "BUIEbCMhWaHaBAaBKaCaBLaBFQbiCgGiBEDSgNeDEETzBBgCrBBzBBdCaCgCkBBzBBzBBzBBzBBzBBzBBzBBzBBbbBDy",
    "CfBByCfBByCfBByCfBByCfCaCSZjCtHf"])

/-- The letters without case : those of the letters that no table lists, and the ordinal signs. -/
def otherLetters : RangeTable :=
  (letters.diff (.unions ([capitalLetters, smallLetters, withProperty "otherlowercase",
    withProperty "otheruppercase", withProperty "otheralphabetic"] ++
      categoryTables.map NamedTable.ranges))).union (.ofString "AA BA")

/-- The numerals that no table lists, but for those that came with version 17. -/
def otherNumbers : RangeTable :=
  numeralRanges.diff (.unions (.ofString "11DE0-11DE9 16FF4-16FF6" ::
    categoryTables.map NamedTable.ranges))

/-- The categories with two letters, except that of surrogates. -/
def categories : List (List String × RangeTable) :=
  let assigned := [(["lu", "uppercaseletter"], capitalLetters),
    (["ll", "lowercaseletter"], smallLetters), (["lo", "otherletter"], otherLetters),
    (["no", "othernumber"], otherNumbers)] ++
      categoryTables.map fun table => (table.1, table.ranges)
  (["cn", "unassigned"], (RangeTable.unions (surrogates :: assigned.map Prod.snd)).compl) ::
    assigned

/-- The characters of the categories. -/
def inCategories (names : List String) : RangeTable :=
  .unions (names.map fun name => (rangesNamed? categories name.toList).getD [])

namespace DerivedProperty

/-! ## Letters and case -/

/-- Small letters, and what is used like one. -/
def lowercase : RangeTable :=
  (inCategories ["ll"]).union (withProperty "otherlowercase")

/-- Capital letters, and what is used like one. -/
def uppercase : RangeTable :=
  (inCategories ["lu"]).union (withProperty "otheruppercase")

/-- The characters of one of the cases. -/
def cased : RangeTable :=
  .unions [lowercase, uppercase, inCategories ["lt"]]

/-- The apostrophe, and the marks that stand inside words. -/
def insideWords : RangeTable :=
  .ofString "27 2E 3A B7 387 55F 5F4 2018-2019 2024 2027 FE13 FE52 FE55 FF07 FF0E FF1A"

/-- The characters that are skipped when the letters around a character are looked for. -/
def caseIgnorable : RangeTable :=
  (inCategories ["mn", "me", "cf", "lm", "sk"]).union insideWords

/-- The characters that lower case changes, the dotted capital I among them. -/
def changesWhenLowercased : RangeTable :=
  pairedCapitals.union [(0x130, 0x130)]

/-- The characters that upper case changes: also ligatures, variants and letters whose upper case
takes several letters. -/
def changesWhenUppercased : RangeTable :=
  pairedSmalls.union (.ofLines [
    "GZaEUaYaCCaCSaDaDaBLaCaNBaCXaBGaSaObEbBAbEaPMaISFiUGfGZaCaCaCaBYhJhJhDaCaCbFaCaEaCaCbFaGbDbLc",
    "CbLaCaCbFaDEYMgNe"])

/-- The characters that title case changes. It leaves Georgian letters, the digraphs that are in
title case and the Greek letters with iota adscript, which upper case changes, and changes the
capital digraphs. -/
def changesWhenTitlecased : RangeTable :=
  (changesWhenUppercased.diff
    (.ofString
      "1C5 1C8 1CB 1F2 10D0-10FA 10FD-10FF 1F88-1F8F 1F98-1F9F 1FA8-1FAF 1FBC 1FCC 1FFC")).union
    (.ofString "1C4 1C7 1CA 1F1")

/-- The characters that one of the cases changes. -/
def changesWhenCasemapped : RangeTable :=
  .unions [changesWhenLowercased, changesWhenUppercased, changesWhenTitlecased]

/-- The small letters that folding changes: variants, ligatures and the Cherokee ones. -/
def foldedSmallLetters : RangeTable :=
  (["B5 DF 149 17F 345 3C2 3D0-3D1 3D5-3D6 3F0-3F1 3F5 587 13F8-13FD 1C80-1C88 1E9A-1E9B",
    "1F80-1F87 1F90-1F97 1FA0-1FA7 1FB2-1FB4 1FB7 1FC2-1FC4 1FC7 1FF2-1FF4 1FF7 AB70-ABBF",
    "FB00-FB06 FB13-FB17"].flatMap RangeTable.ofString)

/-- The characters that case folding changes. Cherokee letters fold to capitals, all others to small
letters. -/
def changesWhenCasefolded : RangeTable :=
  (changesWhenLowercased.diff [(0x13A0, 0x13F5)]).union foldedSmallLetters

/-! ## Identifiers -/

/-- The characters that patterns keep for themselves. -/
def patternCharacters : RangeTable :=
  (withProperty "patternsyntax").union (withProperty "patternwhitespace")

/-- The characters an identifier may start with. -/
def idStart : RangeTable :=
  ((inCategories ["lu", "ll", "lt", "lm", "lo", "nl"]).union
    (withProperty "otheridstart")).diff patternCharacters

/-- The characters an identifier may go on with. -/
def idContinue : RangeTable :=
  (RangeTable.unions [idStart, inCategories ["mn", "mc", "nd", "pc"],
    withProperty "otheridcontinue"]).diff patternCharacters

/-- The characters that normalization turns into a text that goes on no identifier. -/
def unstableContinue : RangeTable :=
  .ofString "37A 309B-309C FC5E-FC63 FDFA-FDFB FE70 FE72 FE74 FE76 FE78 FE7A FE7C FE7E"

/-- The characters that normalization turns into a text that starts no identifier. -/
def unstableStart : RangeTable :=
  unstableContinue.union (.ofString "E33 EB3 FF9E-FF9F")

/-- The characters an identifier may start with, before and after normalization. -/
def xidStart : RangeTable :=
  idStart.diff unstableStart

/-- The characters an identifier may go on with, before and after normalization. -/
def xidContinue : RangeTable :=
  idContinue.diff unstableContinue

/-! ## Other properties -/

/-- Mathematical symbols, and what is used like one. -/
def math : RangeTable :=
  (inCategories ["sm"]).union (withProperty "othermath")

/-- The characters that show nothing where they are not supported. -/
def defaultIgnorable : RangeTable :=
  (RangeTable.unions [withProperty "otherdefaultignorablecodepoint", inCategories ["cf"],
    withProperty "variationselector"]).diff
    (.unions [blankRanges, .ofString "FFF9-FFFB 13430-13440",
      withProperty "prependedconcatenationmark"])

/-- The characters that only extend the one before them. -/
def graphemeExtend : RangeTable :=
  (inCategories ["mn", "me"]).union (withProperty "othergraphemeextend")

/-- The characters that stand on their own. -/
def graphemeBase : RangeTable :=
  (RangeTable.union (inCategories ["cc", "cf", "co", "cn", "zl", "zp"])
    (graphemeExtend.union surrogates)).compl

/-- The derived properties by their names. -/
def all : List (List String × RangeTable) := [
  (["alpha", "alphabetic"], letters),
  (["cased"], cased),
  (["ci", "caseignorable"], caseIgnorable),
  (["cwcf", "changeswhencasefolded"], changesWhenCasefolded),
  (["cwcm", "changeswhencasemapped"], changesWhenCasemapped),
  (["cwl", "changeswhenlowercased"], changesWhenLowercased),
  (["cwt", "changeswhentitlecased"], changesWhenTitlecased),
  (["cwu", "changeswhenuppercased"], changesWhenUppercased),
  (["di", "defaultignorablecodepoint"], defaultIgnorable),
  (["grbase", "graphemebase"], graphemeBase),
  (["grext", "graphemeextend"], graphemeExtend),
  (["idc", "idcontinue"], idContinue),
  (["ids", "idstart"], idStart),
  (["lower", "lowercase"], lowercase),
  (["math"], math),
  (["upper", "uppercase"], uppercase),
  (["wspace", "whitespace", "space"], blankRanges),
  (["xidc", "xidcontinue"], xidContinue),
  (["xids", "xidstart"], xidStart)]

end DerivedProperty

end SqlScript.Regex
