import SqlScript.Regex.Age
import SqlScript.Regex.Break
import SqlScript.Regex.CharSet
import SqlScript.Regex.ScriptExtension

/-!
# Properties of characters by name

In a regular expression `\p` is followed by the name of a property: a general category, a script, or
a property that a character has or lacks. For a property with values its name stands before `=`,
`:` or `!=` and the name of the value after it. Blanks, dashes, underscores, case and a leading `is`
do not count in names.
-/

namespace SqlScript.Regex

/-- The name without case, blanks, dashes, underscores and a leading `is`. -/
def normalizeName (name : Text) : Text :=
  let isMarked := name.startsWithFolded "is".toList
  let body := if isMarked then name.drop 2 else name
  let plain := Text.toLowerAscii
    (body.filter fun c => c.toNat < 0x80 && c != ' ' && c != '_' && c != '-')
  if isMarked && plain == ['c'] then "isc".toList else plain

/-- The groups of categories by name, each with the letters of its categories. -/
def categoryGroups : List (List String × List String) := [
  (["lc", "casedletter"], ["lu", "ll", "lt"]),
  (["l", "letter"], ["lu", "ll", "lt", "lm", "lo"]),
  (["m", "mark", "combiningmark"], ["mn", "mc", "me"]),
  (["n", "number"], ["nd", "nl", "no"]),
  (["p", "punctuation", "punct"], ["pc", "pd", "ps", "pe", "pi", "pf", "po"]),
  (["s", "symbol"], ["sm", "sc", "sk", "so"]),
  (["z", "separator"], ["zs", "zl", "zp"]),
  (["c", "other"], ["cc", "cf", "co", "cn"])]

/-- The characters of a general category or a group of them. -/
def category? (name : Text) : Option RangeTable :=
  let key := String.ofList name
  if key == "any" then some [(0, RangeTable.lastCode)]
  else if key == "ascii" then some [(0, 0x7F)]
  else if key == "assigned" then some (inCategories ["cn"]).compl
  else
    match categoryGroups.find? fun (names, _) => names.contains key with
    | some (_, members) => some (inCategories members)
    | none => rangesNamed? categories name

/-- The assigned characters of no script. -/
def common : RangeTable :=
  (RangeTable.unions (inCategories ["cn", "co"] :: surrogates ::
    scriptTables.map NamedTable.ranges)).compl

/-- The characters of a script. -/
def script? (name : Text) : Option RangeTable :=
  (tableNamed? scriptTables name).or (rangesNamed? [(["zyyy", "common"], common)] name)

/-- The characters used in a script. Those of no script, and those that take the script of what they
stand on, are left out of these where it is said which scripts they are used in. -/
def scriptExtension? (name : Text) : Option RangeTable :=
  (script? name).map fun ranges =>
    if ["zyyy", "common", "zinh", "inherited", "qaai"].contains (String.ofList name) then
      ranges.diff (.unions (scriptExtensionTables.map NamedTable.ranges))
    else ranges.union ((tableNamed? scriptExtensionTables name).getD [])

/-- The characters of a version of Unicode: those that no later version brought. -/
def age? (name : Text) : Option RangeTable :=
  (ageTables.findIdx? fun table => table.1.contains (String.ofList name)).map fun i =>
    (((inCategories ["cn"]).union surrogates).compl.union
      (withProperty "noncharactercodepoint")).diff
      (.unions ((ageTables.drop (i + 1)).map NamedTable.ranges))

/-- The characters with a property that a character has or lacks. -/
def binaryProperty? (name : Text) : Option RangeTable :=
  (rangesNamed? DerivedProperty.all name).or (tableNamed? binaryPropertyTables name)

/-- The characters a property, category or script stands for. -/
def named? (name : Text) : Option RangeTable :=
  (binaryProperty? name).or ((category? name).or (script? name))

/-- The characters with a value of a property. -/
def valued? (property value : Text) : Option RangeTable :=
  match String.ofList property with
  | "gc" | "generalcategory" => category? value
  | "sc" | "script" => script? value
  | "scx" | "scriptextensions" => scriptExtension? value
  | "age" => age? value
  | "gcb" | "graphemeclusterbreak" => rangesNamed? GraphemeBreak.classes value
  | "wb" | "wordbreak" => rangesNamed? WordBreak.classes value
  | "sb" | "sentencebreak" => rangesNamed? SentenceBreak.classes value
  | _ => none

/-- The set a property stands for, and whether it is meant to be complemented. -/
def propertySet? (name : Text) : Option (CharSet × Bool) :=
  let split := (name.cut? "!=".toList).or ((name.cut? [':']).or (name.cut? ['=']))
  let differs := name.includes "!=".toList
  let ranges :=
    match split with
    | some (property, value) => valued? (normalizeName property) (normalizeName value)
    | none => named? (normalizeName name)
  ranges.map (.table ·, differs)

end SqlScript.Regex
