import SqlScript.BigQuery.Basic
import SqlScript.Proofs.OpenLiteral
import SqlScript.Proofs.RowSearch

/-!
# Small letters

Putting a text into small letters changes its words and symbols one by one and leaves the fillers
between them and its string literals as they are (`Layout.Strand.lowerCase_text`). For that the text
must be read as a whole, with no literal left open at its end : the literal that is open after a
text is told by its tokens (`Token.map_mark_openQuote`), and a literal of a strand is closed where
it ends.
-/

namespace SqlScript

open List Layout.Lexeme Token Text

/-! ## Characters -/

/-- The characters of the text are those of ASCII. -/
def Text.Ascii (t : Text) : Prop :=
  ∀ c ∈ t, c.toNat < 128

theorem Text.Ascii.lowercase_eq {t : Text} (h : t.Ascii) : t.lowercase = t.toLowerAscii := by
  have hcodes : ∀ n < 128, lowercaseChar (Char.ofNat n) = [(Char.ofNat n).toLower] := by
    decide +kernel
  have hfrom : ∀ before, lowercaseFrom before t = t.toLowerAscii := by
    induction t with
    | nil => exact fun _ => rfl
    | cons c t ih =>
      obtain ⟨hc, ht⟩ := forall_mem_cons.1 h
      have hsigma : c ≠ 'Σ' := by rintro rfl; exact absurd hc (by decide)
      have hlower := hcodes c.toNat hc
      rw [Char.ofNat_toNat] at hlower
      intro before
      rw [lowercaseFrom, if_neg (by simpa using hsigma), hlower, ih ht]
      rfl
  exact hfrom []

/-- No character before the capital letters has another lower case. -/
theorem Text.lowercase_of_forall {t : Text} (h : ∀ c ∈ t, c.toNat < 0x41) : t.lowercase = t := by
  have hascii : t.Ascii := fun c hc => (h c hc).trans (by decide)
  have hsame : ∀ c ∈ t, c.toLower = c := fun c hc =>
    (toLower_cases c).resolve_right fun hcapital => by have := h c hc; omega
  rw [hascii.lowercase_eq, toLowerAscii, map_congr_left hsame, map_id']

namespace Layout

/-- After a lexeme no literal is open. -/
theorem Lexeme.foldl_markAfter_tokens (lexeme : Lexeme) (offset : Nat) :
    (lexeme.tokens offset).foldl markAfter none = none := by
  cases hliteral : lexeme.isLiteral with
  | false =>
    rw [lexeme.tokens_of_isLiteral_eq_false hliteral, foldl_cons, markAfter,
      lexeme.isQuote_tokenAt hliteral]
    rfl
  | true =>
    cases lexeme with
    | word w => exact absurd hliteral (by simp [isLiteral])
    | symbol s => exact absurd hliteral (by simp [isLiteral])
    | literal l =>
      obtain ⟨inside, hinside, htokens⟩ := exists_tokens_literal offset l
      have hopen : markAfter none ⟨offset, offset + l.mark.utf8Size, [l.mark], false⟩ =
          some l.mark := by
        rw [markAfter, if_pos (isQuote_opening l _ _)]
        rfl
      rw [htokens, foldl_cons, hopen, foldl_append, foldl_markAfter_inside hinside]
      simp [markAfter]

namespace Strand

theorem foldl_markAfter_tokens (strand : Strand) (offset : Nat) :
    (tokens offset strand).foldl Token.markAfter none = none := by
  induction strand generalizing offset with
  | nil => rfl
  | cons part strand ih =>
    rw [tokens, foldl_append, Lexeme.foldl_markAfter_tokens, ih]

end Strand

/-! ## Strands in small letters -/

/-- The text of a lexeme in small letters; a string literal stays. -/
def Lexeme.lowerText : Lexeme → Text
  | word w => w.text.lowercase
  | symbol s => lowercase [s.char]
  | literal l => (literal l).text

theorem Lexeme.lowerText_of_isLiteral_eq_false {lexeme : Lexeme} (h : lexeme.isLiteral = false) :
    lexeme.lowerText = lexeme.text.lowercase := by
  cases lexeme with
  | word w => rfl
  | symbol s => rfl
  | literal l => exact absurd h (by simp [isLiteral])

open BigQuery (lowerTokens lowerCase)

/-- Tokens inside a literal are passed over. -/
theorem lowerTokens_inside (sql : Text) (copied : Nat) {inside : List Token}
    (h : ∀ token ∈ inside, token.inQuotes) (later : List Token) :
    lowerTokens sql copied (inside ++ later) = lowerTokens sql copied later := by
  induction inside with
  | nil => rfl
  | cons token inside ih =>
    rw [forall_mem_cons] at h
    rw [cons_append, lowerTokens, if_pos h.1, ih h.2]

/-- Behind the mark that opens a literal all its tokens are flagged. -/
theorem Literal.exists_tokens (l : Literal) (offset : Nat) : ∃ rest : List Token,
    (literal l).tokens offset =
      ⟨offset, offset + l.mark.utf8Size, [l.mark], false⟩ :: rest ∧
    ∀ token ∈ rest, token.inQuotes := by
  obtain ⟨inside, hinside, htokens⟩ := exists_tokens_literal offset l
  have hflagged : Flagged none ((literal l).tokens offset) :=
    flagged_scanFrom _ none _ (by simp)
  rw [htokens] at hflagged
  exact ⟨_, htokens, (Search.flagged_quoted (isQuote_opening l _ _) hinside (Eq.refl [l.mark])
    hflagged).1⟩

theorem Literal.lowercase_mark (l : Literal) : lowercase [l.mark] = [l.mark] := by
  refine lowercase_of_forall (forall_mem_singleton.2 ?_)
  have hquote := l.quote
  simp only [isQuoteMark, Bool.or_eq_true, beq_iff_eq] at hquote
  rcases hquote with hmark | hmark <;> rw [hmark] <;> decide

namespace Strand

/-- The text of a strand with its words and symbols in small letters. -/
def lowerText : Strand → Text
  | [] => []
  | (lexeme, gap) :: strand => lexeme.lowerText ++ (gap ++ lowerText strand)

/-- What is behind a place of the text is put into small letters lexeme by lexeme. -/
theorem lowerTokens_text (front gap : Text) (strand : Strand) :
    lowerTokens (front ++ (gap ++ text strand)) front.byteSize
      (tokens (front ++ gap).byteSize strand) = .ok (gap ++ lowerText strand) := by
  induction strand generalizing front gap with
  | nil => exact Text.sliceFrom_append rfl
  | cons part strand ih =>
    obtain ⟨lexeme, after⟩ := part
    have hslice : Text.slice (front ++ (gap ++ text ((lexeme, after) :: strand))) front.byteSize
        (front ++ gap).byteSize = .ok gap := Text.slice_append rfl (by simp)
    cases hliteral : lexeme.isLiteral with
    | false =>
      have hrest := ih (front ++ gap ++ lexeme.text) after
      rw [tokens, lexeme.tokens_of_isLiteral_eq_false hliteral, singleton_append,
        lowerTokens, if_neg (by simp [Lexeme.tokenAt])]
      simp only [Lexeme.tokenAt, hslice, ok_bind]
      have hsql : front ++ (gap ++ text ((lexeme, after) :: strand)) =
          front ++ gap ++ lexeme.text ++ (after ++ text strand) := by simp [text]
      have hplace : (front ++ gap).byteSize + lexeme.text.byteSize =
          (front ++ gap ++ lexeme.text).byteSize := (Text.byteSize_append _ _).symm
      have hnext : (front ++ gap).byteSize + lexeme.text.byteSize + after.byteSize =
          (front ++ gap ++ lexeme.text ++ after).byteSize := by
        rw [Text.byteSize_append (front ++ gap ++ lexeme.text), ← hplace]
      rw [hsql, hnext, hplace, hrest, ok_bind, lowerText,
        Lexeme.lowerText_of_isLiteral_eq_false hliteral]
      simp [pure, Except.pure]
    | true =>
      cases lexeme with
      | word w => exact absurd hliteral (by simp [Lexeme.isLiteral])
      | symbol s => exact absurd hliteral (by simp [Lexeme.isLiteral])
      | literal l =>
        obtain ⟨rest, htokens, hquoted⟩ := l.exists_tokens (front ++ gap).byteSize
        have hrest := ih (front ++ gap ++ [l.mark]) (l.content ++ [l.mark] ++ after)
        have hsql : front ++ (gap ++ text ((Lexeme.literal l, after) :: strand)) =
            front ++ gap ++ [l.mark] ++ (l.content ++ [l.mark] ++ after ++ text strand) := by
          simp [text, Lexeme.text]
        have hplace : (front ++ gap).byteSize + l.mark.utf8Size =
            (front ++ gap ++ [l.mark]).byteSize := by simp [Nat.add_assoc]
        have hnext : (front ++ gap).byteSize + (Lexeme.literal l).text.byteSize + after.byteSize =
            (front ++ gap ++ [l.mark] ++ (l.content ++ [l.mark] ++ after)).byteSize := by
          simp [Lexeme.text]
          omega
        rw [tokens, htokens, cons_append, lowerTokens, if_neg (by simp)]
        simp only [hslice, ok_bind, l.lowercase_mark]
        rw [lowerTokens_inside _ _ hquoted, hnext, hplace, hsql, hrest]
        simp [lowerText, Lexeme.lowerText, Lexeme.text, pure, Except.pure]

/-- A legible text is put into small letters lexeme by lexeme. -/
theorem lowerCase_text {lead : Text} (hlead : Heading lead) {strand : Strand} (h : Legible strand) :
    lowerCase (lead ++ text strand) = .ok (lead ++ lowerText strand) := by
  have htokens : SqlScript.tokens (lead ++ text strand) = tokens lead.byteSize strand := by
    have hscan := tokens_scanFrom_heading 0 hlead (text strand)
    rw [Nat.zero_add, tokens_scanFrom _ h] at hscan
    exact hscan
  rw [lowerCase, tokenize_of_foldl (by rw [htokens, foldl_markAfter_tokens]), ok_bind, htokens]
  exact lowerTokens_text [] lead strand

end Strand

/-- A legible row whose words and symbols are in small letters stays. -/
theorem Row.lowerCase_text {σ : Type} (s : σ) {row : Row σ} (hlegible : Row.Legible row)
    (hlower : ∀ cell ∈ row, cell.lexeme.lowerText = cell.lexeme.text) :
    lowerCase (Row.text s row) = .ok (Row.text s row) := by
  have htext : Strand.lowerText (Row.strand s row) = Row.text s row := by
    induction row with
    | nil => rfl
    | cons cell row ih =>
      rw [forall_mem_cons] at hlower
      rw [Row.text_cons, ← hlower.1, ← ih hlegible.tail hlower.2]
      rfl
  have hcase := Strand.lowerCase_text .nil (hlegible.strand s)
  rw [htext] at hcase
  exact hcase

end Layout

end SqlScript
