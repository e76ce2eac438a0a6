import SqlScript.Proofs.Scanning

/-!
# Strict and lenient reading

`tokens` reads any text, and `tokenize` refuses a text that ends inside a literal. Which literals
are open is told by the tokens alone, by an automaton that a quote mark outside of literals starts
and the same mark stops (`Token.markAfter`) : it gives the flag of each token, and the mark of the
literal left open at the end (`Token.map_mark_openQuote`).

A text is refused for a reason that can be seen in its tokens (`tokenize_eq_ok_or_leftOpen`). The
error names a mark and an offset. At that offset a token stands that is the mark, outside of
literals, and all tokens behind it are flagged and none of them is that mark. There may be many
marks in the text, those of the other kind inside a literal among them, so the proof follows the
scanner : a literal it has open either stays open through what is left, or is closed there and a
later one opened (`Token.openQuote_cases`).
-/

namespace SqlScript

namespace Token

/-- The literal open after a text is the one that its tokens leave open. -/
theorem map_mark_openQuote (offset : Nat) (quote : Option OpenQuote) (t : Text)
    (h : ∀ opened ∈ quote, Text.isQuoteMark opened.mark) :
    (scanFrom offset quote t).openQuote.map OpenQuote.mark =
      (scanFrom offset quote t).tokens.foldl markAfter (quote.map OpenQuote.mark) := by
  induction quote, t using piece_induction generalizing offset with
  | nil quote =>
    rw [scanFrom]
    rfl
  | piece quote piece rest hpiece ih =>
    rw [scanFrom_piece _ _ hpiece, List.foldl_append, foldl_markAfter_piece hpiece h]
    exact ih _ _ (Piece.isQuoteMark_quoteAfter h offset piece)

/-- The tokens stand in a literal that the mark would close, and none of them closes it. -/
def Inside (mark : Char) (tokens : List Token) : Prop :=
  ∀ token ∈ tokens, token.inQuotes = true ∧ token.text ≠ [mark]

/-- The token at the offset is a quote mark outside of literals, and all tokens behind it stand in
the literal that it opens. -/
def LeftOpen (tokens : List Token) (mark : Char) (offset : Nat) : Prop :=
  Text.isQuoteMark mark = true ∧ ∃ front opening inside, tokens = front ++ opening :: inside ∧
    opening.start = offset ∧ opening.text = [mark] ∧ opening.inQuotes = false ∧ Inside mark inside

theorem LeftOpen.append {later : List Token} {mark : Char} {offset : Nat}
    (h : LeftOpen later mark offset) (front : List Token) :
    LeftOpen (front ++ later) mark offset := by
  obtain ⟨hmark, front', opening, inside, rfl, hopening⟩ := h
  exact ⟨hmark, front ++ front', opening, inside, by simp, hopening⟩

/-- A literal that is open after a piece was open before it, and the piece does not close it, or the
piece is the mark that opens it. -/
theorem quoteAfter_cases {quote : Option OpenQuote} {t rest : Text} {piece : Piece} {offset : Nat}
    {opened : OpenQuote} (hpiece : piece? quote.isSome t = some (piece, rest))
    (hquote : ∀ opened ∈ quote, Text.isQuoteMark opened.mark)
    (h : piece.quoteAfter offset quote = some opened) :
    (quote = some opened ∧ Inside opened.mark (piece.tokens offset quote)) ∨
      (quote = none ∧ piece = .symbol opened.mark ∧ opened.offset = offset) := by
  have hkept : quote = some opened → piece.text ≠ [opened.mark] →
      Inside opened.mark (piece.tokens offset quote) := by
    intro hopen hne token hmem
    rw [eq_of_mem_piece hmem]
    exact ⟨by rw [hopen]; rfl, hne⟩
  cases piece with
  | word run =>
    refine .inl ⟨h, hkept h ?_⟩
    rintro rfl
    have hword := (piece?_eq_word_iff.1 hpiece).2.2.1 opened.mark (by simp)
    simp [isWordChar_of_isQuoteMark (hquote opened h)] at hword
  | symbol c =>
    simp only [Piece.quoteAfter, quoteAfter] at h
    split at h
    · split at h
      · cases h
        exact .inr ⟨rfl, rfl, rfl⟩
      · cases h
    · split at h
      · cases h
      · rename_i hc
        exact .inl ⟨h, hkept h (by simpa [Piece.text, ← Option.some.inj h] using hc)⟩
  | blank c => exact .inl ⟨h, by simp [Inside, Piece.tokens]⟩
  | comment body => exact .inl ⟨h, by simp [Inside, Piece.tokens]⟩

/-- A literal left open at the end was open before the first token and no token closes it, or one of
the tokens opens it. -/
theorem openQuote_cases (offset : Nat) (quote : Option OpenQuote) (t : Text) {opened : OpenQuote}
    (hquote : ∀ opened ∈ quote, Text.isQuoteMark opened.mark)
    (h : (scanFrom offset quote t).openQuote = some opened) :
    (quote = some opened ∧ Inside opened.mark (scanFrom offset quote t).tokens) ∨
      LeftOpen (scanFrom offset quote t).tokens opened.mark opened.offset := by
  induction quote, t using piece_induction generalizing offset with
  | nil quote =>
    rw [scanFrom] at h
    exact .inl ⟨h, by simp [tokens_scanFrom_nil, Inside]⟩
  | piece quote piece rest hpiece ih =>
    rw [scanFrom_piece _ _ hpiece] at h
    rw [tokens_scanFrom _ _ hpiece]
    have hmark := Piece.isQuoteMark_quoteAfter hquote offset piece
    rcases ih _ _ hmark h with ⟨hafter, hinside⟩ | hopen
    · rcases quoteAfter_cases hpiece hquote hafter with ⟨hsame, hfirst⟩ | ⟨rfl, rfl, hoffset⟩
      · exact .inl ⟨hsame, fun token hmem =>
          (List.mem_append.1 hmem).elim (hfirst token) (hinside token)⟩
      · exact .inr ⟨hmark _ hafter, [], _, _, rfl, hoffset.symm, rfl, rfl, hinside⟩
    · exact .inr (hopen.append _)

end Token

theorem tokenize_of_foldl {t : Text} (h : (tokens t).foldl Token.markAfter none = none) :
    tokenize t = .ok (tokens t) := by
  have hopen := Token.map_mark_openQuote 0 none t (by simp)
  have hnone : (Token.scan t).openQuote = none := Option.map_eq_none_iff.1 (hopen.trans h)
  rw [tokenize]
  simp only [hnone]
  rfl

/-- No literal is open at the end of the text, and both ways of reading give the same tokens; or the
strict one fails at the mark of a literal that is open from there to the end. In both cases a token
is flagged just if the tokens before it leave a literal open. -/
theorem tokenize_eq_ok_or_leftOpen (t : Text) :
    (((tokens t).foldl Token.markAfter none = none ∧ tokenize t = .ok (tokens t)) ∨
      ∃ mark offset, (tokens t).foldl Token.markAfter none = some mark ∧
        tokenize t = .error (.unterminatedLiteral mark offset) ∧
        Token.LeftOpen (tokens t) mark offset) ∧
    ∀ front token back, tokens t = front ++ token :: back →
      token.inQuotes = (front.foldl Token.markAfter none).isSome := by
  have hopen := Token.map_mark_openQuote 0 none t (by simp)
  refine ⟨?_, fun front token back htokens => ?_⟩
  · cases hscan : (Token.scan t).openQuote with
    | none =>
      have hnone : (tokens t).foldl Token.markAfter none = none :=
        hopen.symm.trans (congrArg _ hscan)
      exact .inl ⟨hnone, tokenize_of_foldl hnone⟩
    | some opened =>
      refine .inr ⟨opened.mark, opened.offset, hopen.symm.trans (congrArg _ hscan), ?_, ?_⟩
      · rw [tokenize]
        simp only [hscan]
      · rcases Token.openQuote_cases 0 none t (by simp) hscan with ⟨hnone, -⟩ | hleft
        · cases hnone
        · exact hleft
  · have hflagged := flagged_tokens t
    rw [htokens] at hflagged
    exact hflagged.of_append.1

-- The marks of a literal that is closed, and those of the other kind inside, leave nothing open.
example : (Token.scan "\"a\" 'b \"c".toList).openQuote = some ⟨'\'', 4⟩ := by decide +kernel

end SqlScript
