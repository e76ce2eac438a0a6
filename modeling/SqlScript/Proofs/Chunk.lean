import Mathlib.Data.List.Infix
import SqlScript.Proofs.CaseTable
import SqlScript.Proofs.IdListRow
import SqlScript.Proofs.SmallLetters

/-!
# Texts with and without their comments

A text is read in chunks : words and symbols, string literals, blanks and comments (`chunks`). The
comments are those that the scanner passes over. With a space for each of them the text is
`blankComments`.

Where the comments are clear (`isClear`), the lexemes of the text can be told apart from the fillers
between them, and the text with its comments and the text without them have the same lexemes. So the
two in small letters are one row with two indices (`exists_lowerCase`).
-/

namespace SqlScript

open List Option Layout.Lexeme Text

/-! ## Chunks -/

/-- A part of a text as it is read. -/
inductive Chunk where
  /-- A word or a symbol. -/
  | code (t : Text)
  /-- A string literal with its marks. -/
  | quoted (t : Text)
  | blank (c : Char)
  /-- A comment with its delimiters. -/
  | comment (body : Text)
deriving DecidableEq

namespace Chunk

/-- The characters of a chunk. -/
def text : Chunk → Text
  | code t => t
  | quoted t => t
  | blank c => [c]
  | comment body => body

/-- The chunk, or a space for a comment. The newline that ends a line comment stays. -/
def blanked : Chunk → Text
  | comment body =>
    if body.head? == some '-' && body.getLast? == some '\n' then [' ', '\n'] else [' ']
  | chunk => chunk.text

/-- A piece outside of literals as a chunk. -/
def ofPiece : Piece → Chunk
  | .word run => code run
  | .symbol c => code [c]
  | .blank c => blank c
  | .comment body => comment body

theorem text_ofPiece (piece : Piece) : (ofPiece piece).text = piece.text := by
  cases piece <;> rfl

end Chunk

/-- The first chunk of a text and the rest. A literal that is not closed runs to the end. -/
def chunk? : Text → Option (Chunk × Text)
  | [] => none
  | c :: t =>
    if isQuoteMark c then
      match cut? t [c] with
      | some (content, rest) => some (.quoted (c :: (content ++ [c])), rest)
      | none => some (.quoted (c :: t), [])
    else (piece? false (c :: t)).map fun found => (.ofPiece found.1, found.2)

theorem append_of_chunk? {t rest : Text} {chunk : Chunk} (h : chunk? t = some (chunk, rest)) :
    chunk.text ++ rest = t ∧ chunk.text ≠ [] := by
  cases t with
  | nil => exact absurd h nofun
  | cons c t =>
    rw [chunk?] at h
    split at h
    · split at h
      · rename_i content rest' hcut
        cases h
        have happend := append_of_cut? hcut
        exact ⟨by simpa [Chunk.text] using happend, cons_ne_nil _ _⟩
      · cases h
        exact ⟨append_nil _, cons_ne_nil _ _⟩
    · obtain ⟨⟨piece, rest'⟩, hpiece, heq⟩ := map_eq_some_iff.1 h
      cases heq
      rw [Chunk.text_ofPiece]
      exact append_of_piece? hpiece

theorem length_lt_of_chunk? {t rest : Text} {chunk : Chunk} (h : chunk? t = some (chunk, rest)) :
    rest.length < t.length := by
  obtain ⟨happend, hne⟩ := append_of_chunk? h
  have hpos := length_pos_iff.2 hne
  rw [← happend, length_append]
  omega

theorem eq_nil_of_chunk?_eq_none {t : Text} (h : chunk? t = none) : t = [] := by
  cases t with
  | nil => rfl
  | cons c t =>
    rw [chunk?] at h
    split at h
    · split at h <;> cases h
    · exact Token.eq_nil_of_piece?_eq_none (map_eq_none_iff.1 h)

/-- The chunks of a text. -/
def chunks (t : Text) : List Chunk :=
  match _h : chunk? t with
  | none => []
  | some (chunk, rest) => chunk :: chunks rest
termination_by t.length
decreasing_by exact length_lt_of_chunk? _h

theorem chunks_of_chunk? {t rest : Text} {chunk : Chunk} (h : chunk? t = some (chunk, rest)) :
    chunks t = chunk :: chunks rest := by
  rw [chunks]
  split
  · rename_i hnone
    exact absurd (hnone.symm.trans h) nofun
  · rename_i hsome
    cases hsome.symm.trans h
    rfl

theorem chunks_nil : chunks [] = [] := by
  rw [chunks]
  rfl

/-- The text with a space for each comment. -/
def blankComments (t : Text) : Text :=
  (chunks t).flatMap Chunk.blanked

/-- Nothing is lost. -/
theorem flatMap_text_chunks (t : Text) : (chunks t).flatMap Chunk.text = t := by
  induction hlength : t.length using Nat.strongRecOn generalizing t with
  | ind n ih =>
    subst hlength
    cases hchunk : chunk? t with
    | none =>
      rw [eq_nil_of_chunk?_eq_none hchunk, chunks_nil]
      rfl
    | some found =>
      obtain ⟨chunk, rest⟩ := found
      rw [chunks_of_chunk? hchunk, flatMap_cons, ih _ (length_lt_of_chunk? hchunk) rest rfl]
      exact (append_of_chunk? hchunk).1

/-! ## Clear comments -/

/-- Whether the text is a comment with its closing mark or its newline. -/
def isClosedComment (body : Text) : Bool :=
  splitComment? (body ++ [' ']) == some (body, [' '])

namespace Chunk

/-- Whether the chunk holds no `$`, no dotted capital I and no lone `@`, where these matter. -/
def isPlain : Chunk → Bool
  | code t => t != ['$'] && t != ['@'] && !t.contains 'İ'
  | quoted t => (tokens t).all (·.text != ['@'])
  | _ => true

/-- Whether the chunk is the word `by` or a quoted number. No comment may stand behind these. -/
def isTouchy : Chunk → Bool
  | code t => t.lowercase == "by".toList
  | quoted t => BigQuery.IdList.isQuotedNumber t
  | _ => false

end Chunk

/-- Whether the chunks are plain and the comments are clear : all are closed, and those behind the
first word, symbol or literal are block comments, are closed also without their single quotes, and
do not stand behind the word `by` or a quoted number. `last` is the last word, symbol or literal
before the chunks. -/
def isClear (last : Option Chunk) : List Chunk → Bool
  | [] => true
  | .blank _ :: chunks => isClear last chunks
  | .comment body :: chunks =>
    isClosedComment body && (last.isNone || (body.head? == some '/' &&
      isClosedComment (body.filter (· != '\'')) && !last.any Chunk.isTouchy)) && isClear last chunks
  | chunk :: chunks =>
    chunk.isPlain && !(chunk == .code ['-'] && (chunks.flatMap Chunk.text).head? == some '-') &&
      isClear (some chunk) chunks

/-! ## Lexemes in lower case -/

namespace Layout

/-- The lexeme in lower case; a string literal stays. -/
def Lexeme.lower : (lexeme : Lexeme) → (lexeme.isLiteral = false → 'İ' ∉ lexeme.text) → Lexeme
  | word w, h => word ⟨w.text.lowercase, lowercase_ne_nil (h rfl) w.ne_nil,
      all_isWordChar_lowercase (h rfl) w.chars⟩
  | symbol s, _ => symbol s
  | literal l, _ => literal l

theorem Lexeme.getLast?_literal (l : Literal) : (literal l).text.getLast? = some l.mark := by
  rw [text, ← cons_append, getLast?_concat]

/-- A symbol or literal neither starts nor ends with a part of a word. -/
theorem Lexeme.isWordChar_of_ne_word {lexeme : Lexeme} (h : ∀ w, lexeme ≠ word w) {x : Char}
    (hx : lexeme.text.getLast? = some x ∨ lexeme.text.head? = some x) : isWordChar x = false := by
  cases lexeme with
  | word w => exact absurd rfl (h w)
  | symbol s =>
    obtain rfl : s.char = x := hx.elim some.inj some.inj
    exact s.word
  | literal l =>
    obtain rfl : l.mark = x :=
      hx.elim (fun h => some.inj ((getLast?_literal l).symm.trans h)) some.inj
    exact isWordChar_of_isQuoteMark l.quote

section Lower

variable {lexeme : Lexeme} (h : lexeme.isLiteral = false → 'İ' ∉ lexeme.text)

theorem Lexeme.text_lower : (lexeme.lower h).text = lexeme.lowerText := by
  cases lexeme with
  | word w => rfl
  | symbol s => exact (lowercase_singleton s.word).symm
  | literal l => rfl

theorem Lexeme.isLiteral_lower : (lexeme.lower h).isLiteral = lexeme.isLiteral := by
  cases lexeme <;> rfl

theorem Lexeme.isNumber_lower : (lexeme.lower h).isNumber = lexeme.isNumber := by
  cases lexeme <;> rfl

theorem Lexeme.lowerText_eq_by (hby : (lexeme.lower h).text.toLowerAscii = ['b', 'y']) :
    lexeme.lowerText = ['b', 'y'] := by
  cases lexeme with
  | word w => exact (toLowerAscii_lowercase (h rfl)).symm.trans hby
  | symbol s => exact absurd (cons.inj hby).2 (cons_ne_nil _ _).symm
  | literal l =>
    have hmark := toLower_eq_self_of_isWordChar_eq_false (isWordChar_of_isQuoteMark l.quote)
    have hb : l.mark = 'b' := hmark.symm.trans (cons.inj hby).1
    exact absurd (hb ▸ l.quote) (by decide)

theorem Lexeme.named_lower (hnamed : ∀ key ∈ lexeme.keys, key.1 ≠ ['@']) :
    ∀ key ∈ (lexeme.lower h).keys, key.1 ≠ ['@'] := by
  cases lexeme with
  | word w =>
    rw [keys_of_isLiteral_eq_false rfl, forall_mem_singleton] at hnamed ⊢
    exact fun hlone => hnamed (eq_singleton_of_lowercase (h rfl) (by decide) hlone)
  | symbol s => exact hnamed
  | literal l => exact hnamed

theorem Lexeme.lower_eq_self (hword : ∀ w, lexeme ≠ word w) : lexeme.lower h = lexeme := by
  cases lexeme with
  | word w => exact absurd rfl (hword w)
  | symbol s => rfl
  | literal l => rfl

/-- In lower case lexemes still do not run together. -/
theorem Lexeme.apart_lower {other : Lexeme} (h' : other.isLiteral = false → 'İ' ∉ other.text)
    (hapart : Apart lexeme.text other.text) :
    Apart (lexeme.lower h).text (other.lower h').text := by
  by_cases hleft : ∃ w, lexeme = word w
  · obtain ⟨w, rfl⟩ := hleft
    have hother : ∀ v, other ≠ word v := by
      rintro v rfl
      have hlast := all_eq_true.1 w.chars _ (getLast_mem w.ne_nil)
      have hhead := all_eq_true.1 v.chars _ (head_mem v.ne_nil)
      have hfuses := apart_iff.1 hapart _ (getLast?_eq_some_getLast w.ne_nil) _
        (head?_eq_some_head v.ne_nil)
      rw [fuses_of_isWordChar_left hlast, hhead] at hfuses
      exact absurd hfuses nofun
    rw [lower_eq_self h' hother]
    refine apart_iff.2 fun x hx y hy => ?_
    have hchars : ∀ c ∈ w.text.lowercase, isWordChar c :=
      all_eq_true.1 (all_isWordChar_lowercase (h rfl) w.chars)
    rw [fuses_of_isWordChar_left (hchars x (mem_of_getLast? hx))]
    exact isWordChar_of_ne_word hother (.inr hy)
  · have hself : ∀ w, lexeme ≠ word w := fun w hw => hleft ⟨w, hw⟩
    rw [lower_eq_self h hself]
    by_cases hright : ∃ v, other = word v
    · obtain ⟨v, rfl⟩ := hright
      refine apart_iff.2 fun x hx y hy => ?_
      have hchars : ∀ c ∈ v.text.lowercase, isWordChar c :=
        all_eq_true.1 (all_isWordChar_lowercase (h' rfl) v.chars)
      rw [fuses_of_isWordChar_right x (hchars y (mem_of_head? hy))]
      exact isWordChar_of_ne_word hself (.inl hx)
    · rwa [lower_eq_self h' fun v hv => hright ⟨v, hv⟩]

end Lower

/-! ## Entries -/

/-- A lexeme of a text in any letters, with the filler behind it at every index. -/
structure Entry (σ : Type) where
  lexeme : Lexeme
  gap : σ → Text
  filler : ∀ s, Filler (gap s)
  plain : lexeme.isLiteral = false → 'İ' ∉ lexeme.text
  dollar : lexeme.isLiteral = false → lexeme.text ≠ ['$']
  named : ∀ key ∈ lexeme.keys, key.1 ≠ ['@']
  number : lexeme.isNumber = true → ∀ s, (gap s).Blank
  even : lexeme.lowerText = ['b', 'y'] → Even gap

namespace Entry

variable {σ : Type}

/-- The entry in lower case. -/
def cell (entry : Entry σ) : Cell σ where
  lexeme := entry.lexeme.lower entry.plain
  gap := entry.gap
  filler := entry.filler
  named := .inr (named_lower entry.plain entry.named)
  number h := entry.number (isNumber_lower entry.plain ▸ h)
  even h := entry.even (lowerText_eq_by entry.plain h)

/-- At every index a filler stands between the entries, or else they do not run together. -/
def Beside (a b : Entry σ) : Prop :=
  ∀ s, a.gap s ≠ [] ∨ Apart a.lexeme.text b.lexeme.text

/-- The lexemes with the fillers at an index. -/
def strand (s : σ) (entries : List (Entry σ)) : Strand :=
  entries.map fun entry => (entry.lexeme, entry.gap s)

theorem lowerText_strand (s : σ) (entries : List (Entry σ)) :
    Strand.lowerText (strand s entries) = Row.text s (entries.map cell) := by
  induction entries with
  | nil => rfl
  | cons entry entries ih =>
    have htext : (strand s (entry :: entries)).lowerText =
        entry.lexeme.lowerText ++ (entry.gap s ++ (strand s entries).lowerText) := rfl
    rw [htext, map_cons, Row.text_cons, ih, cell, text_lower]

theorem legible_strand {entries : List (Entry σ)} (h : entries.IsChain Beside) (s : σ) :
    (strand s entries).Legible where
  filler part hmem := by
    obtain ⟨entry, -, rfl⟩ := mem_map.1 hmem
    exact entry.filler s
  apart := (isChain_map _).2 (h.imp fun _ _ hbeside => hbeside s)

theorem legible_map_cell {entries : List (Entry σ)} (h : entries.IsChain Beside) :
    Row.Legible (entries.map cell) :=
  (isChain_map _).2 (h.imp fun a b hbeside s =>
    (hbeside s).imp_right fun hapart => apart_lower a.plain b.plain hapart)

theorem weight_map_cell (entries : List (Entry σ)) : Row.weight ['$'] (entries.map cell) = 0 := by
  refine countP_eq_zero.2 fun cell hmem his => ?_
  obtain ⟨entry, -, rfl⟩ := mem_map.1 hmem
  have hliteral := (Cell.is_iff.1 his).1
  have htext := Cell.text_of_is his (by decide)
  have hentry : entry.lexeme.isLiteral = false :=
    (isLiteral_lower entry.plain).symm.trans hliteral
  rw [Entry.cell, text_lower, lowerText_of_isLiteral_eq_false hentry] at htext
  exact entry.dollar hentry (eq_singleton_of_lowercase (entry.plain hentry) (by decide) htext)

end Entry

/-! ## Lexemes as chunks -/

/-- The chunk of a lexeme. -/
def Lexeme.chunk : Lexeme → Chunk
  | word w => .code w.text
  | symbol s => .code [s.char]
  | literal l => .quoted (literal l).text

theorem Lexeme.text_chunk (lexeme : Lexeme) : lexeme.chunk.text = lexeme.text := by
  cases lexeme <;> rfl

/-- What the first chunk of a text can be, with the rest of the text. -/
inductive IsChunk : Chunk → Text → Prop
  | blank {c : Char} (rest : Text) (hblank : isBlank c = true) : IsChunk (.blank c) rest
  | comment {body rest : Text} (hcomment : IsComment body rest) : IsChunk (.comment body) rest
  | lexeme (lexeme : Lexeme) {rest : Text}
      (hapart : (lexeme.chunk = .code ['-'] → rest.head? ≠ some '-') → Apart lexeme.text rest) :
      IsChunk lexeme.chunk rest
  /-- A literal that is not closed runs to the end of the text. -/
  | unclosed {mark : Char} {t : Text} (hquote : isQuoteMark mark = true) (hopen : mark ∉ t) :
      IsChunk (.quoted (mark :: t)) []

theorem Lexeme.apart_word (w : Word) {rest : Text} (h : rest.head?.any isWordChar = false) :
    Apart (word w).text rest := by
  refine apart_iff.2 fun x hx y hy => ?_
  rw [fuses_of_isWordChar_left (all_eq_true.1 w.chars x (mem_of_getLast? hx))]
  simpa [hy] using h

theorem Lexeme.apart_symbol (s : Symbol) {rest : Text}
    (hcomment : splitComment? (s.char :: rest) = none)
    (hdash : s.char = '-' → rest.head? ≠ some '-') : Apart (symbol s).text rest := by
  refine apart_iff.2 fun x hx y hy => ?_
  obtain rfl : s.char = x := some.inj hx
  obtain ⟨later, rfl⟩ := head?_eq_some_iff.1 hy
  have hdash' : (s.char == '-' && y == '-') = false := by
    simpa using hdash
  have hslash : (s.char == '/' && y == '*') = false := by
    rw [Bool.eq_false_iff]
    intro hopens
    obtain ⟨hslash, hstar⟩ := Bool.and_eq_true_iff.1 hopens
    rw [beq_iff_eq.1 hslash, beq_iff_eq.1 hstar, splitComment?] at hcomment
    split at hcomment <;> cases hcomment
  rw [fuses, s.word, hdash', hslash]
  rfl

theorem Lexeme.apart_literal (l : Literal) (rest : Text) : Apart (literal l).text rest := by
  refine apart_iff.2 fun x hx y _ => ?_
  obtain rfl : l.mark = x := some.inj ((getLast?_literal l).symm.trans hx)
  have hquote := l.quote
  simp only [isQuoteMark, Bool.or_eq_true, beq_iff_eq] at hquote
  rw [fuses, isWordChar_of_isQuoteMark l.quote]
  rcases hquote with hmark | hmark <;> rw [hmark] <;> rfl

theorem isChunk_of_chunk? {t rest : Text} {chunk : Chunk} (h : chunk? t = some (chunk, rest)) :
    IsChunk chunk rest := by
  cases t with
  | nil => cases h
  | cons c t =>
    rw [chunk?] at h
    split at h
    · rename_i hquote
      split at h
      · rename_i content rest' hcut
        cases h
        have hclosed : c ∉ content := fun hmem =>
          not_infix_of_cut? (by simp) hcut ((singleton_infix_iff c content).2 hmem)
        exact .lexeme (.literal ⟨c, content, hquote, hclosed⟩) fun _ => apart_literal _ _
      · rename_i hcut
        cases h
        exact .unclosed hquote fun hmem =>
          cut?_eq_none_iff.1 hcut ((singleton_infix_iff c t).2 hmem)
    · rename_i hquote
      obtain ⟨⟨piece, rest'⟩, hpiece, heq⟩ := map_eq_some_iff.1 h
      cases heq
      cases piece with
      | word run =>
        obtain ⟨-, hne, hchars, hhead⟩ := piece?_eq_word_iff.1 hpiece
        exact .lexeme (.word ⟨run, hne, all_eq_true.2 hchars⟩) fun _ =>
          apart_word _ hhead
      | symbol d =>
        obtain ⟨hcons, hword, hblank, hsplit⟩ := piece?_eq_symbol_iff.1 hpiece
        cases hcons
        refine .lexeme (.symbol ⟨c, hword, hblank, Bool.eq_false_iff.2 hquote⟩) fun hdash => ?_
        exact apart_symbol _ (hsplit.resolve_left Bool.false_ne_true)
          fun hc => hdash (by rw [← hc]; rfl)
      | blank d => exact .blank _ (piece?_eq_blank_iff.1 hpiece).2
      | comment body =>
        exact .comment (splitComment?_eq_some_iff.1 (piece?_eq_comment_iff.1 hpiece).2).2

end Layout

end SqlScript
