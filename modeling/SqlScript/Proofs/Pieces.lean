import SqlScript.Proofs.Gaps

/-!
# Texts read piece by piece

`Cuts rest mark t pieces mark'` says that the scanner takes `t` apart into the pieces when `rest`
follows it, from a place where the literal with `mark` is open to a place where the one with `mark'`
is. Offsets play no part in this; `Piece.tokensFrom` gives the tokens of pieces that stand at an
offset (`Cuts.tokens_scanFrom`).

Of what follows a text only that matters where it ends a piece. `Delimits old new` says that `new`
ends every piece that `old` ends, and then a text is taken apart in the same way before both
(`Cuts.of_delimits`). A token starts where a piece starts, so what stands before a token is taken
apart on its own (`exists_cuts_of_mem`).
-/

namespace SqlScript

open List Option Token Piece Text

namespace Piece

/-- The mark of the literal that is open after the piece. -/
def markAfter (mark : Option Char) : Piece → Option Char
  | symbol c =>
    match mark with
    | none => if isQuoteMark c then some c else none
    | some opened => if c == opened then none else some opened
  | _ => mark

theorem map_quoteAfter (piece : Piece) (offset : Nat) (quote : Option OpenQuote) :
    (piece.quoteAfter offset quote).map OpenQuote.mark =
      piece.markAfter (quote.map OpenQuote.mark) := by
  cases piece with
  | symbol c =>
    cases quote with
    | none => simp only [quoteAfter, Token.quoteAfter, markAfter, map_none]; split <;> rfl
    | some opened =>
      simp only [quoteAfter, Token.quoteAfter, markAfter, map_some]
      split <;> rfl
  | _ => rfl

/-- The text of the token that the piece is, if it is one. -/
def tokenText? : Piece → Option Text
  | word run => some run
  | symbol c => some [c]
  | blank _ | comment _ => none

theorem text_of_tokenText? {piece : Piece} {t : Text} (h : piece.tokenText? = some t) :
    piece.text = t := by
  cases piece <;> simp [tokenText?] at h <;> exact h

/-- The texts of the tokens among the pieces. -/
def texts (pieces : List Piece) : List Text :=
  pieces.filterMap tokenText?

/-- The tokens of pieces that stand at the offset. -/
def tokensFrom (offset : Nat) (quote : Option OpenQuote) : List Piece → List Token
  | [] => []
  | piece :: pieces => piece.tokens offset quote ++
      tokensFrom (offset + piece.text.byteSize) (piece.quoteAfter offset quote) pieces

/-- The literal that is open after pieces that stand at the offset. -/
def quoteFrom (offset : Nat) (quote : Option OpenQuote) : List Piece → Option OpenQuote
  | [] => quote
  | piece :: pieces =>
    quoteFrom (offset + piece.text.byteSize) (piece.quoteAfter offset quote) pieces

theorem map_text_tokens (piece : Piece) (offset : Nat) (quote : Option OpenQuote) :
    (piece.tokens offset quote).map Token.text = piece.tokenText?.toList := by
  cases piece <;> rfl

theorem map_text_tokensFrom (pieces : List Piece) (offset : Nat) (quote : Option OpenQuote) :
    (tokensFrom offset quote pieces).map Token.text = texts pieces := by
  induction pieces generalizing offset quote with
  | nil => rfl
  | cons piece pieces ih =>
    rw [tokensFrom, map_append, ih, map_text_tokens]
    cases piece <;> rfl

theorem isQuoteMark_quoteFrom {quote : Option OpenQuote}
    (h : ∀ opened ∈ quote, isQuoteMark opened.mark) (offset : Nat)
    (pieces : List Piece) : ∀ opened ∈ quoteFrom offset quote pieces, isQuoteMark opened.mark := by
  induction pieces generalizing offset quote with
  | nil => exact h
  | cons piece pieces ih => exact ih (isQuoteMark_quoteAfter h offset piece) _

end Piece

/-! ## What may follow a piece -/

/-- Where `old` ends a piece, `new` ends it too. -/
structure Delimits (old new : Text) : Prop where
  ne_nil : old ≠ []
  word : old.head?.any isWordChar = false → new.head?.any isWordChar = false
  comment : ∀ s, s ≠ [] → splitComment? (s ++ old) = none → splitComment? (s ++ new) = none

theorem Delimits.piece? {old new before : Text} {inQuotes : Bool} {piece : Piece}
    (h : Delimits old new)
    (hpiece : piece? inQuotes (piece.text ++ (before ++ old)) = some (piece, before ++ old)) :
    piece? inQuotes (piece.text ++ (before ++ new)) = some (piece, before ++ new) := by
  refine piece?_of_rest hpiece (fun _ _ => append_ne_nil_of_right_ne_nil before h.ne_nil)
    (fun _ _ hhead => ?_) fun c _ _ => h.comment (c :: before) (cons_ne_nil c before)
  cases before with
  | nil => exact h.word hhead
  | cons c before => exact hhead

/-! ## Taking a text apart -/

/-- The text is taken apart into the pieces, when `rest` follows it. -/
inductive Cuts (rest : Text) : Option Char → Text → List Piece → Option Char → Prop where
  | nil {mark : Option Char} : Cuts rest mark [] [] mark
  | cons {mark mark' : Option Char} {piece : Piece} {t : Text} {pieces : List Piece} :
    piece? mark.isSome (piece.text ++ (t ++ rest)) = some (piece, t ++ rest) →
    Cuts rest (piece.markAfter mark) t pieces mark' →
    Cuts rest mark (piece.text ++ t) (piece :: pieces) mark'

namespace Cuts

variable {rest t : Text} {mark mark' : Option Char} {pieces : List Piece}

theorem flatMap_text (h : Cuts rest mark t pieces mark') : pieces.flatMap Piece.text = t := by
  induction h with
  | nil => rfl
  | cons _ _ ih => rw [flatMap_cons, ih]

variable {quote : Option OpenQuote}

/-- The literal that is open after the pieces. -/
theorem map_quoteFrom (h : Cuts rest mark t pieces mark') (hquote : quote.map OpenQuote.mark = mark)
    (offset : Nat) : (quoteFrom offset quote pieces).map OpenQuote.mark = mark' := by
  induction h generalizing quote offset with
  | nil => exact hquote
  | cons _ _ ih => exact ih (by rw [map_quoteAfter, hquote]) _

/-- The tokens of the pieces open and close literals as the pieces do. -/
theorem foldl_markAfter (h : Cuts rest mark t pieces mark')
    (hquote : quote.map OpenQuote.mark = mark)
    (hmarks : ∀ opened ∈ quote, Text.isQuoteMark opened.mark) (offset : Nat) :
    (Piece.tokensFrom offset quote pieces).foldl Token.markAfter mark = mark' := by
  induction h generalizing quote offset with
  | nil => rfl
  | @cons mark _ piece t pieces hpiece _ ih =>
    have hsome : quote.isSome = mark.isSome := by rw [← hquote, isSome_map]
    have hafter : (piece.tokens offset quote).foldl Token.markAfter mark =
        piece.markAfter mark := by
      rw [← hquote, ← Piece.map_quoteAfter piece offset]
      exact foldl_markAfter_piece (hsome ▸ hpiece) hmarks offset
    rw [Piece.tokensFrom, foldl_append, hafter]
    exact ih (by rw [Piece.map_quoteAfter, hquote])
      (Piece.isQuoteMark_quoteAfter hmarks offset piece) _

/-- The pieces stand in the text. -/
theorem text_subset (h : Cuts rest mark t pieces mark') {piece : Piece} (hpiece : piece ∈ pieces) :
    piece.text ⊆ t := by
  rw [← h.flatMap_text]
  exact fun c hc => mem_flatMap.2 ⟨piece, hpiece, hc⟩

theorem subset_of_mem_texts (h : Cuts rest mark t pieces mark') :
    ∀ text ∈ texts pieces, text ⊆ t := by
  intro text hmem
  obtain ⟨piece, hpiece, hsome⟩ := mem_filterMap.1 hmem
  rw [← text_of_tokenText? hsome]
  exact h.text_subset hpiece

/-- The tokens of the pieces start before the text ends. -/
theorem start_lt_of_mem (h : Cuts rest mark t pieces mark') {offset : Nat} :
    ∀ token ∈ tokensFrom offset quote pieces, token.start < offset + t.byteSize := by
  induction h generalizing offset quote with
  | nil => simp [tokensFrom]
  | @cons _ _ piece t pieces hpiece _ ih =>
    have hpos := mt byteSize_eq_zero_iff.1 (append_of_piece? hpiece).2
    rw [tokensFrom, byteSize_append, forall_mem_append]
    refine ⟨fun token hmem => ?_, fun token hmem => ?_⟩
    · have hstart : token.start = offset := by rw [eq_of_mem_piece hmem]
      omega
    · have hlt := ih token hmem
      omega

/-- The tokens of a text are those of its pieces, and those of what follows. -/
theorem tokens_scanFrom (h : Cuts rest mark t pieces mark')
    (hquote : quote.map OpenQuote.mark = mark) (offset : Nat) :
    (scanFrom offset quote (t ++ rest)).tokens = tokensFrom offset quote pieces ++
      (scanFrom (offset + t.byteSize) (quoteFrom offset quote pieces) rest).tokens := by
  induction h generalizing quote offset with
  | nil => rfl
  | @cons mark _ piece t pieces hpiece _ ih =>
    have hsome : quote.isSome = mark.isSome := by rw [← hquote, isSome_map]
    rw [append_assoc, tokens_scanFrom offset quote (hsome ▸ hpiece),
      ih (by rw [map_quoteAfter, hquote]) _, tokensFrom, append_assoc,
      byteSize_append, Nat.add_assoc]
    rfl

theorem tokens_append (h : Cuts rest none t pieces none) : tokens (t ++ rest) =
    tokensFrom 0 none pieces ++ (scanFrom t.byteSize none rest).tokens := by
  have hscan := h.tokens_scanFrom (map_none _) 0
  rwa [Nat.zero_add, map_eq_none_iff.1 (h.map_quoteFrom (map_none _) 0)] at hscan

/-- A text is taken apart in the same way before what ends its last piece too. -/
theorem of_delimits {old new : Text} (h : Cuts old mark t pieces mark') (hnew : Delimits old new) :
    Cuts new mark t pieces mark' := by
  induction h with
  | nil => exact .nil
  | cons hpiece _ ih => exact .cons (hnew.piece? hpiece) ih

end Cuts

variable {front before old : Text} {token : Token} {run later : List Token}

/-- What stands before a token is taken apart on its own. -/
theorem exists_cuts_of_mem {quote : Option OpenQuote}
    (hmem : token ∈ (scanFrom front.byteSize quote (before ++ old)).tokens)
    (hstart : token.start = (front ++ before).byteSize) : ∃ pieces mark',
      Cuts old (quote.map OpenQuote.mark) before pieces mark' := by
  -- by induction on what is left before the token, since a piece may be of any length
  induction hlength : before.length using Nat.strongRecOn generalizing front before quote with
  | ind n ih =>
    subst hlength
    by_cases hne : before = []
    · subst hne
      exact ⟨[], _, .nil⟩
    · obtain ⟨piece, before, rfl, hpiece, hlater⟩ := exists_piece_before hne hmem hstart
      have hshort : before.length < (piece.text ++ before).length := by
        have hlt := length_lt_of_piece? hpiece
        simp only [length_append] at hlt ⊢
        omega
      obtain ⟨pieces, mark', hcuts⟩ := ih before.length hshort hlater
        (by rw [hstart, append_assoc]) rfl
      rw [map_quoteAfter] at hcuts
      rw [append_assoc, ← isSome_map (f := OpenQuote.mark)] at hpiece
      exact ⟨piece :: pieces, mark', .cons hpiece hcuts⟩

/-- What stands before a token is taken apart into the tokens before it. -/
theorem exists_cuts_of_start {quote : Option OpenQuote}
    (h : (scanFrom front.byteSize quote (before ++ old)).tokens = run ++ token :: later)
    (hstart : token.start = (front ++ before).byteSize) : ∃ pieces mark,
      Cuts old (quote.map OpenQuote.mark) before pieces mark ∧
      tokensFrom front.byteSize quote pieces = run ∧
      (scanFrom (front ++ before).byteSize (quoteFrom front.byteSize quote pieces)
        old).tokens = token :: later := by
  have hlaid := (laid_scanFrom (before ++ old) front quote).1
  have hmem : token ∈ (scanFrom front.byteSize quote (before ++ old)).tokens := by simp [h]
  obtain ⟨pieces, mark, hcuts⟩ := exists_cuts_of_mem hmem hstart
  have hscan := hcuts.tokens_scanFrom rfl front.byteSize
  rw [← byteSize_append, h] at hscan
  -- the tokens that start before the token are counted on both sides
  have hlength : run.length = (tokensFrom front.byteSize quote pieces).length := by
    have hget : (scanFrom front.byteSize quote (before ++ old)).tokens[run.length]? =
        some token := by simp [h]
    rw [← hlaid.countP_start hget, h, hscan, countP_append, countP_eq_length.2,
      countP_scanFrom_eq_zero (Nat.le_of_eq hstart), Nat.add_zero]
    intro other hother
    have hlt := hcuts.start_lt_of_mem other hother
    simpa [hstart, byteSize_append] using hlt
  obtain ⟨hrun, hlater⟩ := append_inj hscan hlength
  exact ⟨pieces, mark, hcuts, hrun.symm, hlater.symm⟩

theorem exists_cuts_of_tokens (h : tokens (before ++ old) = run ++ token :: later)
    (hstart : token.start = before.byteSize) :
    ∃ pieces mark, Cuts old none before pieces mark ∧ tokensFrom 0 none pieces = run ∧
      token.inQuotes = mark.isSome ∧
      (scanFrom before.byteSize (quoteFrom 0 none pieces) old).tokens = token :: later := by
  have hscan : (scanFrom (byteSize []) none (before ++ old)).tokens = _ := h
  obtain ⟨pieces, mark, hcuts, hrun, hlater⟩ := exists_cuts_of_start hscan hstart
  obtain ⟨piece, -, -, hpiece⟩ := exists_piece_at (hlater ▸ mem_cons_self) hstart
  refine ⟨pieces, mark, hcuts, hrun, ?_, hlater⟩
  rw [← hcuts.map_quoteFrom (map_none _) 0, isSome_map, eq_of_mem_piece hpiece]
  rfl

/-- A text falls into two at each of its tokens: what stands before it is taken apart into the
tokens before it, and what stands from it on is read into the others. -/
theorem exists_cuts_at {t : Text} {quote : Option OpenQuote}
    (h : (scanFrom front.byteSize quote t).tokens = run ++ token :: later) :
    ∃ before behind pieces mark, t = before ++ (token.text ++ behind) ∧
      (front ++ before).byteSize = token.start ∧
      Cuts (token.text ++ behind) (quote.map OpenQuote.mark) before pieces mark ∧
      tokensFrom front.byteSize quote pieces = run ∧
      (scanFrom (front ++ before).byteSize (quoteFrom front.byteSize quote pieces)
        (token.text ++ behind)).tokens = token :: later := by
  obtain ⟨hlaid, hle⟩ := laid_scanFrom t front quote
  have hmem : token ∈ (scanFrom front.byteSize quote t).tokens := by simp [h]
  obtain ⟨a, behind, htext, ha, -⟩ := slice?_eq_some_iff.1 (hlaid.slice token hmem)
  obtain ⟨before, rfl, rfl⟩ :=
    exists_append_of_byteSize_le htext (ha ▸ hle token hmem)
  obtain ⟨pieces, mark, hcuts, hrun, hscan⟩ := exists_cuts_of_start h ha.symm
  exact ⟨before, behind, pieces, mark, rfl, ha, hcuts, hrun, hscan⟩

end SqlScript
