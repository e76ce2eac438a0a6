import SqlScript.Proofs.Seam

/-!
# What stands between the tokens

A text is made up of its tokens and of gaps : before the first token, between one and the next, and
after the last one. A gap holds blanks, and where no literal is open it holds comments too (`Gap`).
`IsComment` says what a comment is and what can follow it, apart from how the scanner finds one
(`splitComment?_eq_some_iff`).

The main statement, `accounted_tokens`, is about every text. Its tokens lie in it in order. Each
one is a whole word, which no word character stands next to, or a single symbol. Wherever the list
of the tokens is cut in two, what stands in the text between the two parts is a gap; and where no
literal is open, a token does not stand where a comment could. The proof follows the scanner : a
piece that is no token makes the gap in front of it longer.
-/

namespace SqlScript

open List Option Token

/-! ## Gaps -/

/-- Blanks, and outside of literals comments, with what follows them in the text. -/
inductive Gap : (inQuotes : Bool) → Text → Text → Prop
  | nil (inQuotes : Bool) (rest : Text) : Gap inQuotes [] rest
  | blank {inQuotes : Bool} {c : Char} {gap rest : Text} (hblank : isBlank c = true)
      (later : Gap inQuotes gap rest) : Gap inQuotes (c :: gap) rest
  | comment {body gap rest : Text} (hcomment : IsComment body (gap ++ rest))
      (later : Gap false gap rest) : Gap false (body ++ gap) rest

namespace Token

/-- The token stands between `before` and `after` as a word that does not go on to either side, or
as a symbol. -/
inductive Whole (before : Text) (text : Text) (after : Text) : Prop
  | word (hne : text ≠ []) (hword : ∀ c ∈ text, isWordChar c = true)
      (hbefore : before.getLast?.any isWordChar = false)
      (hafter : after.head?.any isWordChar = false)
  | symbol (c : Char) (htext : text = [c]) (hword : isWordChar c = false)
      (hblank : isBlank c = false)

/-- Where the last of the tokens stops, or else the given offset. -/
def stopOf (offset : Nat) (tokens : List Token) : Nat :=
  (tokens.getLast?.map stop).getD offset

/-- Where the first of the tokens starts, or else the given offset. -/
def startOf (offset : Nat) (tokens : List Token) : Nat :=
  (tokens.head?.map start).getD offset

end Token

/-- The tokens account for every character of the text. -/
structure Accounted (t : Text) (tokens : List Token) : Prop where
  /-- The tokens lie in the text, in order. -/
  laid : Laid t tokens
  /-- Each is a whole word or a symbol, and outside literals none stands where a comment could. -/
  whole : ∀ token ∈ tokens, ∃ before after, t = before ++ (token.text ++ after) ∧
    before.byteSize = token.start ∧ Whole before token.text after ∧
    (token.inQuotes = false → ∀ body rest, token.text ++ after = body ++ rest →
      ¬ IsComment body rest)
  /-- The flags of the tokens say whether a literal is open. -/
  flagged : Flagged none tokens
  /-- Wherever the tokens are cut in two, a gap stands between the parts. -/
  gaps : ∀ front back, tokens = front ++ back → ∃ before gap after,
    t = before ++ (gap ++ after) ∧ before.byteSize = stopOf 0 front ∧
    (before ++ gap).byteSize = startOf t.byteSize back ∧
    Gap (front.foldl markAfter none).isSome gap after

namespace Token

/-- A word does not stand at the seam between a piece and the rest on both sides. -/
theorem seam_of_piece? {inQuotes : Bool} {t rest : Text} {piece : Piece}
    (h : piece? inQuotes t = some (piece, rest)) (before : Text) :
    (before ++ piece.text).getLast?.any isWordChar = false ∨ rest.head?.any isWordChar = false := by
  have hlast : ∀ (init : Text) (c : Char), isWordChar c = false →
      (before ++ (init ++ [c])).getLast?.any isWordChar = false := by
    intro init c hc
    rw [← append_assoc, getLast?_concat, any_some, hc]
  cases piece with
  | word run => exact .inr (piece?_eq_word_iff.1 h).2.2.2
  | symbol c => exact .inl (hlast [] c (piece?_eq_symbol_iff.1 h).2.1)
  | blank c => exact .inl (hlast [] c (isWordChar_of_isBlank (piece?_eq_blank_iff.1 h).2))
  | comment body =>
    obtain ⟨-, hcomment⟩ := splitComment?_eq_some_iff.1 (piece?_eq_comment_iff.1 h).2
    rcases hcomment.eq_nil_or with rfl | ⟨init, c, rfl, hc⟩
    · exact .inr rfl
    · exact .inl (hlast init c hc)

/-- The token of a piece is whole. -/
theorem whole_of_mem_piece {offset : Nat} {quote : Option OpenQuote} {t rest before : Text}
    {piece : Piece} {token : Token} (h : piece? quote.isSome t = some (piece, rest))
    (hbefore : before.getLast?.any isWordChar = false ∨ t.head?.any isWordChar = false)
    (hmem : token ∈ piece.tokens offset quote) :
    token.text = piece.text ∧ token.start = offset ∧ Whole before token.text rest ∧
      (token.inQuotes = false → ∀ body after, token.text ++ rest = body ++ after →
        ¬ IsComment body after) := by
  cases piece with
  | word run =>
    obtain ⟨rfl, hne, hrun, hafter⟩ := piece?_eq_word_iff.1 h
    obtain rfl := mem_singleton.1 hmem
    obtain ⟨c, run, rfl⟩ := exists_cons_of_ne_nil hne
    have hc := hrun c mem_cons_self
    refine ⟨rfl, rfl, .word hne hrun (hbefore.resolve_right (by simp [hc])) hafter, ?_⟩
    intro _ body after htext hcomment
    have hsplit := splitComment?_eq_some_iff.2 ⟨htext, hcomment⟩
    simp [isWordChar_of_splitComment? hsplit] at hc
  | symbol c =>
    obtain ⟨rfl, hword, hblank, hsplit⟩ := piece?_eq_symbol_iff.1 h
    obtain rfl := mem_singleton.1 hmem
    refine ⟨rfl, rfl, .symbol c rfl hword hblank, ?_⟩
    intro houtside body after htext hcomment
    have hsome : splitComment? (c :: rest) = some (body, after) :=
      splitComment?_eq_some_iff.2 ⟨htext, hcomment⟩
    rcases hsplit with hquoted | hnone
    · simp [show quote.isSome = false from houtside] at hquoted
    · simp [hsome] at hnone
  | blank c => simp [Piece.tokens] at hmem
  | comment body => simp [Piece.tokens] at hmem

/-- The tokens of the rest of a text are whole. -/
theorem whole_scanFrom (t before : Text) (quote : Option OpenQuote)
    (hbefore : before.getLast?.any isWordChar = false ∨ t.head?.any isWordChar = false) :
    ∀ token ∈ (scanFrom before.byteSize quote t).tokens, ∃ a after, t = a ++ (token.text ++ after) ∧
      (before ++ a).byteSize = token.start ∧ Whole (before ++ a) token.text after ∧
      (token.inQuotes = false → ∀ body rest, token.text ++ after = body ++ rest →
        ¬ IsComment body rest) := by
  induction quote, t using piece_induction generalizing before with
  | nil quote => simp [tokens_scanFrom_nil]
  | piece quote piece rest hpiece ih =>
    intro token hmem
    rw [tokens_scanFrom _ _ hpiece, mem_append] at hmem
    rcases hmem with hmem | hmem
    · obtain ⟨htext, hstart, hwhole, hnone⟩ := whole_of_mem_piece hpiece hbefore hmem
      refine ⟨[], rest, by rw [htext]; rfl, by simp [hstart], ?_, hnone⟩
      rwa [append_nil]
    · rw [← Text.byteSize_append] at hmem
      obtain ⟨a, after, rfl, hstart, hwhole, hnone⟩ :=
        ih _ _ (seam_of_piece? hpiece before) token hmem
      refine ⟨piece.text ++ a, after, (append_assoc _ _ _).symm, ?_, ?_, hnone⟩
      · rw [← append_assoc, hstart]
      · rwa [← append_assoc]

theorem stopOf_cons (offset : Nat) (token : Token) (tokens : List Token) :
    stopOf offset (token :: tokens) = stopOf token.stop tokens := by
  cases h : tokens.getLast? <;> simp [stopOf, getLast?_cons, h]

/-- A piece that is no token makes the gap after it longer. -/
theorem gap_of_piece? {inQuotes : Bool} {piece : Piece} {gap rest : Text} {offset : Nat}
    {quote : Option OpenQuote} (h : piece? inQuotes (piece.text ++ (gap ++ rest)) =
      some (piece, gap ++ rest)) (htoken : piece.tokens offset quote = [])
    (hgap : Gap inQuotes gap rest) : Gap inQuotes (piece.text ++ gap) rest := by
  cases piece with
  | word run => simp [Piece.tokens] at htoken
  | symbol c => simp [Piece.tokens] at htoken
  | blank c => exact .blank (piece?_eq_blank_iff.1 h).2 hgap
  | comment body =>
    obtain ⟨rfl, hsplit⟩ := piece?_eq_comment_iff.1 h
    exact .comment (splitComment?_eq_some_iff.1 hsplit).2 hgap

/-- Wherever the tokens of the rest of a text are cut in two, a gap stands between the parts. -/
theorem gaps_scanFrom (t before : Text) (quote : Option OpenQuote)
    (hquote : ∀ opened ∈ quote, Text.isQuoteMark opened.mark) (front back : List Token)
    (htokens : (scanFrom before.byteSize quote t).tokens = front ++ back) : ∃ a gap after,
      t = a ++ (gap ++ after) ∧ (before ++ a).byteSize = stopOf before.byteSize front ∧
      (before ++ (a ++ gap)).byteSize = startOf (before ++ t).byteSize back ∧
      Gap (front.foldl markAfter (quote.map OpenQuote.mark)).isSome gap after := by
  induction quote, t using piece_induction generalizing before front with
  | nil quote =>
    rw [tokens_scanFrom_nil, nil_eq, append_eq_nil_iff] at htokens
    obtain ⟨rfl, rfl⟩ := htokens
    exact ⟨[], [], [], rfl, by simp [stopOf], by simp [startOf], .nil _ _⟩
  | piece quote piece rest hpiece ih =>
    have hlater := ih _ (before ++ piece.text)
      (Piece.isQuoteMark_quoteAfter hquote before.byteSize piece)
    rw [tokens_scanFrom _ _ hpiece, ← Text.byteSize_append] at htokens
    rcases piece_cases hpiece hquote before.byteSize with
      ⟨hnone, hsame⟩ | ⟨token, htoken, hstart, hstop, hmark⟩
    · -- the piece stands before the first token of the rest, or in front of it
      rw [hnone, nil_append] at htokens
      obtain ⟨a, gap, after, rfl, hfront, hback, hgap⟩ := hlater front htokens
      rw [hsame] at hgap
      cases front with
      | nil =>
        obtain rfl : a = [] := by
          simp only [stopOf, getLast?_nil, map_none, getD_none, Text.byteSize_append] at hfront
          exact Text.byteSize_eq_zero_iff.1 (by omega)
        refine ⟨[], piece.text ++ gap, after, by simp, by simp [stopOf], ?_, ?_⟩
        · simpa using hback
        · rw [foldl_nil, isSome_map] at hgap ⊢
          exact gap_of_piece? hpiece hnone hgap
      | cons token front =>
        refine ⟨piece.text ++ a, gap, after, by simp, ?_, ?_, hgap⟩
        · rw [stopOf_cons] at hfront ⊢
          simpa using hfront
        · simpa using hback
    · rw [htoken] at htokens
      cases front with
      | nil =>
        subst htokens
        exact ⟨[], [], _, rfl, by simp [stopOf], by simp [startOf, hstart], .nil _ _⟩
      | cons first front =>
        obtain ⟨rfl, hrest⟩ := List.cons.inj htokens
        obtain ⟨a, gap, after, rfl, hfront, hback, hgap⟩ := hlater front hrest
        refine ⟨piece.text ++ a, gap, after, by simp, ?_, by simpa using hback, ?_⟩
        · rw [stopOf_cons, hstop]
          simpa using hfront
        · rwa [foldl_cons, hmark]

end Token

/-- The scanner accounts for every character : each one stands in a token, which is a whole word or
a symbol, or in a gap of blanks and comments. -/
theorem accounted_tokens (t : Text) : Accounted t (tokens t) where
  laid := laid_tokens t
  whole := Token.whole_scanFrom t [] none (.inl rfl)
  flagged := flagged_tokens t
  gaps front back htokens := Token.gaps_scanFrom t [] none (by simp) front back htokens

end SqlScript
