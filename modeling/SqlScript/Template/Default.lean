import SqlScript.Template.Parameter

/-!
# Default values

A template declares default values by `{DEFAULT @name = value}`. `Default.extract` takes the
declarations out of the text, each with the blanks behind it and one line break, so a line that
holds only a declaration disappears. Of two declarations of a name the later one counts.
-/

namespace SqlScript

namespace Default

/-- The opening of a declaration. -/
def opening : Text :=
  "\x7bDEFAULT ".toList

/-- The end of a declaration. -/
def closing : Text :=
  ['\x7d']

/-- The text without the spaces and tabs at its start and one line break after them. -/
def dropLineEnd (t : Text) : Text :=
  match t.dropWhile fun c => c == ' ' || c == '\t' with
  | '\n' :: rest => rest
  | '\r' :: '\n' :: rest => rest
  | rest => rest

/-- The name and value a declaration gives, if it has both. -/
def declared? (body : Text) : Option (Text × Text) := do
  let (left, right) ← body.cut? ['=']
  let name := left.trim
  let name := (name.strip? ['@']).getD name
  if name.isEmpty then none else some (name, right.trim.unquote)

/-- The text before the first declaration, its body, and the text after it. -/
def split? (t : Text) : Option (Text × Text × Text) := do
  let (before, after) ← t.cut? opening
  let (body, rest) ← after.cut? closing
  return (before, body, rest)

theorem length_dropLineEnd_le (t : Text) : (dropLineEnd t).length ≤ t.length := by
  have shorter := (List.dropWhile_sublist (l := t) fun c => c == ' ' || c == '\t').length_le
  unfold dropLineEnd
  split <;> simp_all <;> omega

theorem length_lt_of_split? {t before body rest : Text}
    (h : split? t = some (before, body, rest)) : rest.length < t.length := by
  unfold split? at h
  cases hopen : t.cut? opening with
  | none => simp [hopen] at h
  | some found =>
    obtain ⟨before', after⟩ := found
    cases hclose : after.cut? closing with
    | none => simp [hopen, hclose] at h
    | some found =>
      obtain ⟨body', rest'⟩ := found
      simp only [hopen, hclose, Option.bind_eq_bind, Option.bind_some, pure, Option.some.injEq,
        Prod.mk.injEq] at h
      obtain ⟨_, _, rfl⟩ := h
      have := Text.length_le_of_cut? hopen
      have := Text.length_le_of_cut? hclose
      have : 0 < opening.length := by decide
      omega

/-- The text without its declarations, and the bodies of these in order. -/
def segments (t : Text) : Text × List Text :=
  match _h : split? t with
  | some (before, body, rest) =>
    let (stripped, bodies) := segments (dropLineEnd rest)
    (before ++ stripped, body :: bodies)
  | none => (t, [])
termination_by t.length
decreasing_by
  have := length_lt_of_split? _h
  have := length_dropLineEnd_le rest
  omega

/-- The text without its declarations, and the values they give. -/
def extract (t : Text) : Text × Parameters :=
  let (stripped, bodies) := segments t
  (stripped, (bodies.filterMap declared?).foldl (fun values (name, value) =>
    values.insert name value) [])

end Default

end SqlScript
