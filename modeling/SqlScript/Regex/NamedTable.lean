import SqlScript.Text.Basic

/-!
# Tables by name

A property of characters is looked up under one of its names. The names are in small letters,
without blanks, dashes and underscores.
-/

namespace SqlScript.Regex

/-- The names of a property, and the lines of its table. -/
abbrev NamedTable := List String × List String

/-- The ranges of the characters with the property. -/
def NamedTable.ranges (table : NamedTable) : RangeTable :=
  .ofLines table.2

/-- The ranges of the table that has the name. -/
def tableNamed? (tables : List NamedTable) (name : Text) : Option RangeTable :=
  (tables.find? fun table => table.1.contains (String.ofList name)).map NamedTable.ranges

/-- The ranges that have the name. -/
def rangesNamed? (sets : List (List String × RangeTable)) (name : Text) : Option RangeTable :=
  (sets.find? fun set => set.1.contains (String.ofList name)).map Prod.snd

end SqlScript.Regex
