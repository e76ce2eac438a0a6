import SqlScript.Text.Basic

/-!
# Parameters

Parameters give values to names. `substitute` puts them into a text: at each `@` the longest name
that follows is replaced by its value, so `@ab` is never spoiled by a shorter `@a`, and a value put
in is not read again. A reference to an unknown name stays as it is.
-/

namespace SqlScript

/-- Values by name. A name occurs once. -/
abbrev Parameters := List (Text × Text)

namespace Parameters

/-- The value of a name. -/
def get? (values : Parameters) (name : Text) : Option Text :=
  values.lookup name

/-- The parameters with a value for the name, in place of an earlier one. -/
def insert (values : Parameters) (name value : Text) : Parameters :=
  (name, value) :: values.filter fun entry => entry.1 != name

/-- The parameters, with the values of `defaults` for the names they lack. -/
def withDefaults (values defaults : Parameters) : Parameters :=
  values ++ defaults.filter fun entry => (values.get? entry.1).isNone

/-- Of the names that are not empty and start the text, the longest: its value and what follows
it. -/
def longestMatch? (t : Text) : Parameters → Option (Text × Text)
  | [] => none
  | (name, value) :: values =>
    match if name.isEmpty then none else t.strip? name, longestMatch? t values with
    | some rest, some (other, otherRest) =>
      if otherRest.length < rest.length then some (other, otherRest) else some (value, rest)
    | some rest, none => some (value, rest)
    | none, found => found

/-- What follows a name is no longer than the text. -/
theorem length_le_of_longestMatch? {t value rest : Text} {values : Parameters}
    (h : longestMatch? t values = some (value, rest)) : rest.length ≤ t.length := by
  induction values generalizing value rest with
  | nil => simp [longestMatch?] at h
  | cons entry values ih =>
    obtain ⟨name, value'⟩ := entry
    simp only [longestMatch?] at h
    split at h
    · rename_i rest' other otherRest hstrip hfound
      split at hstrip
      · simp at hstrip
      · split at h
        · simp only [Option.some.injEq, Prod.mk.injEq] at h
          obtain ⟨rfl, rfl⟩ := h
          exact ih hfound
        · simp only [Option.some.injEq, Prod.mk.injEq] at h
          obtain ⟨rfl, rfl⟩ := h
          exact Text.length_le_of_strip? hstrip
    · rename_i rest' hstrip _
      split at hstrip
      · simp at hstrip
      · simp only [Option.some.injEq, Prod.mk.injEq] at h
        obtain ⟨rfl, rfl⟩ := h
        exact Text.length_le_of_strip? hstrip
    · exact ih h

/-- The text with every reference to a name replaced by its value. -/
def substitute (values : Parameters) : Text → Text
  | [] => []
  | c :: t =>
    if c == '@' then
      match _h : longestMatch? t values with
      | some (value, rest) => value ++ substitute values rest
      | none => c :: substitute values t
    else c :: substitute values t
termination_by t => t.length
decreasing_by
  · have := length_le_of_longestMatch? _h
    simp only [List.length_cons]
    omega
  all_goals simp

/-- The names no reference to which occurs in the text. -/
def unreferenced (t : Text) (names : List Text) : List Text :=
  names.filter fun name => !t.includes ('@' :: name)

/-- The warning about a name that is not referred to. -/
def unreferencedWarning (name : Text) : Text :=
  "Parameter '".toList ++ name ++ "' not found in SQL".toList

end Parameters

end SqlScript
