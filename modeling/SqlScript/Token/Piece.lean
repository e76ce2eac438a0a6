import SqlScript.Text.Basic

/-!
# Pieces of a text

Read from the left, a text falls into pieces: words, single symbols, single blanks and comments.
`piece?` takes the first piece off. Inside a quoted literal there are no comments.
`append_of_piece?` says that nothing is lost: the piece and the rest make up the text again.
-/

namespace SqlScript

/-- A character of a word: a letter, a numeral, `_` or `@`. -/
def isWordChar (c : Char) : Bool :=
  isAlphanumeric c || c == '_' || c == '@'

/-- A piece of a text. -/
inductive Piece where
  /-- A run of word characters. -/
  | word (run : Text)
  /-- A character that is neither a blank nor part of a word. -/
  | symbol (c : Char)
  /-- A blank outside comments. -/
  | blank (c : Char)
  /-- A comment with its delimiters. -/
  | comment (body : Text)
deriving DecidableEq, Repr

/-- The characters of a piece. -/
def Piece.text : Piece → Text
  | word run => run
  | symbol c => [c]
  | blank c => [c]
  | comment body => body

/-- A comment at the start of the text and what follows it. A line comment, `--`, runs through the
end of its line, and is none when `hint` follows the dashes; a block comment runs to the first
`*/` after its opening. Both may run to the end of the text. -/
def splitComment? : Text → Option (Text × Text)
  | '-' :: '-' :: t =>
    if Text.startsWithFolded t "hint".toList then none
    else
      let line := t.takeWhile (· != '\n')
      match t.dropWhile (· != '\n') with
      | [] => some ('-' :: '-' :: line, [])
      | lineBreak :: rest => some ('-' :: '-' :: (line ++ [lineBreak]), rest)
  | '/' :: '*' :: t =>
    match Text.cut? t "*/".toList with
    | some (body, rest) => some ('/' :: '*' :: (body ++ "*/".toList), rest)
    | none => some ('/' :: '*' :: t, [])
  | _ => none

/-- The first piece of the text and the rest. -/
def piece? (inQuotes : Bool) : Text → Option (Piece × Text)
  | [] => none
  | c :: t =>
    if isWordChar c then
      some (.word (c :: t.takeWhile isWordChar), t.dropWhile isWordChar)
    else
      match if inQuotes then none else splitComment? (c :: t) with
      | some (body, rest) => some (.comment body, rest)
      | none => if isBlank c then some (.blank c, t) else some (.symbol c, t)

/-! ## Nothing is lost -/

/-- A comment and what follows it make up the text, and a comment is not empty. -/
theorem append_of_splitComment? {t body rest : Text} (h : splitComment? t = some (body, rest)) :
    body ++ rest = t ∧ body ≠ [] := by
  unfold splitComment? at h
  split at h
  · rename_i t
    split at h
    · simp at h
    · dsimp only at h
      have whole := List.takeWhile_append_dropWhile (p := (· != '\n')) (l := t)
      split at h
      · rename_i hrest
        simp only [Option.some.injEq, Prod.mk.injEq] at h
        obtain ⟨rfl, rfl⟩ := h
        rw [hrest] at whole
        simpa using whole
      · rename_i lineBreak rest' hrest
        simp only [Option.some.injEq, Prod.mk.injEq] at h
        obtain ⟨rfl, rfl⟩ := h
        rw [hrest] at whole
        simpa using whole
  · rename_i t
    split at h
    · rename_i body' rest' hcut
      simp only [Option.some.injEq, Prod.mk.injEq] at h
      obtain ⟨rfl, rfl⟩ := h
      simpa using Text.append_of_cut? hcut
    · simp only [Option.some.injEq, Prod.mk.injEq] at h
      obtain ⟨rfl, rfl⟩ := h
      simp
  · simp at h

/-- The first piece and the rest make up the text, and a piece is not empty. -/
theorem append_of_piece? {inQuotes : Bool} {t rest : Text} {piece : Piece}
    (h : piece? inQuotes t = some (piece, rest)) :
    piece.text ++ rest = t ∧ piece.text ≠ [] := by
  cases t with
  | nil => simp [piece?] at h
  | cons c t =>
    simp only [piece?] at h
    split at h
    · simp only [Option.some.injEq, Prod.mk.injEq] at h
      obtain ⟨rfl, rfl⟩ := h
      simp [Piece.text]
    · split at h
      · rename_i body rest' hcomment
        simp only [Option.some.injEq, Prod.mk.injEq] at h
        obtain ⟨rfl, rfl⟩ := h
        split at hcomment
        · simp at hcomment
        · exact append_of_splitComment? hcomment
      · split at h <;>
        · simp only [Option.some.injEq, Prod.mk.injEq] at h
          obtain ⟨rfl, rfl⟩ := h
          simp [Piece.text]

/-- Taking a piece off makes the text shorter. -/
theorem length_lt_of_piece? {inQuotes : Bool} {t rest : Text} {piece : Piece}
    (h : piece? inQuotes t = some (piece, rest)) : rest.length < t.length := by
  obtain ⟨whole, nonempty⟩ := append_of_piece? h
  rw [← whole, List.length_append]
  have := List.length_pos_iff.2 nonempty
  omega

end SqlScript
