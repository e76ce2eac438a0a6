import SqlScript.Proofs.Bracket
import SqlScript.Proofs.Folding

/-!
# Reading a stretch of a text on its own

A stretch of a text that runs from the start of a token outside of literals to the end of a token
has the same tokens when it is read on its own, but for their places.

Before its first token a text has only blanks and comments (`Token.exists_scanFrom_first`), and at
another offset it has the same tokens, moved (`Token.tokens_scanFrom_moved`). What stands before a
`;` is read in the same way whatever follows (`Token.exists_scanFrom_semicolon`), and nothing is
lost with what stands behind the last token (`Token.tokens_scanFrom_front`). That is not plain where
dashes are no comment because of the word after them : that word is a token itself, so it is not
lost (`Token.splitComment?_front`).
-/

namespace SqlScript

open List Text Piece

/-- Blanks and comments leave the literals as they are. -/
theorem Piece.quoteFrom_of_tokensFrom_eq_nil {offset : Nat} {quote : Option OpenQuote}
    {pieces : List Piece} (h : tokensFrom offset quote pieces = []) :
    quoteFrom offset quote pieces = quote := by
  induction pieces generalizing offset with
  | nil => rfl
  | cons piece pieces ih =>
    rw [tokensFrom, append_eq_nil_iff] at h
    have hsame : piece.quoteAfter offset quote = quote := by
      cases piece <;> simp [tokens] at h <;> rfl
    rw [hsame] at h
    rw [quoteFrom, hsame, ih h.2]

namespace Token

/-! ## From the first token to the last -/

variable {front t trail : Text} {quote : Option OpenQuote}

/-- Before the first token stand only blanks and comments, so it can be read from its own place. -/
theorem exists_scanFrom_first {first : Token} {later : List Token}
    (h : (scanFrom front.byteSize quote t).tokens = first :: later) :
    ∃ gap rest, t = gap ++ rest ∧ first.start = (front ++ gap).byteSize ∧
      first.inQuotes = quote.isSome ∧
      (scanFrom (front ++ gap).byteSize quote rest).tokens = first :: later := by
  obtain ⟨gap, behind, pieces, mark, rfl, hstart, -, hnone, hscan⟩ :=
    exists_cuts_at (h.trans (nil_append _).symm)
  rw [quoteFrom_of_tokensFrom_eq_nil hnone] at hscan
  obtain ⟨piece, -, -, hmem⟩ := exists_piece_at (hscan ▸ mem_cons_self) hstart.symm
  exact ⟨gap, _, rfl, hstart.symm, by rw [eq_of_mem_piece hmem], hscan⟩

/-- A text that starts with a word has a word for its first piece. -/
theorem exists_piece?_word {lead : Text} (hne : lead ≠ []) (hlead : ∀ p ∈ lead, isWordChar p)
    (h : startsWithFolded t lead)
    (inQuotes : Bool) : ∃ run rest, piece? inQuotes t = some (.word run, rest) := by
  obtain ⟨p, lead, rfl⟩ := exists_cons_of_ne_nil hne
  cases t with
  | nil => simp [startsWithFolded, stripFolded?, stripBy?] at h
  | cons c t =>
    have hsame : p.toLower = c.toLower := by
      by_contra hdiffers
      simp [startsWithFolded, stripFolded?, stripBy?, hdiffers] at h
    have hword : isWordChar c := by
      rw [← isWordChar_toLower, ← hsame, isWordChar_toLower]
      exact hlead p mem_cons_self
    rw [piece?, if_pos hword]
    exact ⟨_, _, rfl⟩

/-- Whether dashes open a comment is decided by the word after them, which is a token. -/
theorem splitComment?_front (hnone : splitComment? ('-' :: '-' :: (t ++ trail)) = none)
    (hstop : ∀ token ∈ (scanFrom front.byteSize quote ('-' :: '-' :: (t ++ trail))).tokens,
      token.stop ≤ (front ++ '-' :: '-' :: t).byteSize) :
    splitComment? ('-' :: '-' :: t) = none := by
  rw [splitComment?_dashes_eq_none_iff] at hnone ⊢
  have hchars : ∀ p ∈ "hint".toList, isWordChar p := List.all_eq_true.1 (by decide)
  obtain ⟨run, rest, hword⟩ := exists_piece?_word (by simp) hchars hnone false
  obtain ⟨htext, hne, hrun, hrest⟩ := piece?_eq_word_iff.1 hword
  have hdash : ∀ (q : Bool) (u : Text), splitComment? ('-' :: u) = none →
      piece? q ('-' :: u) = some (.symbol '-', u) := fun q u hu =>
    piece?_eq_symbol_iff.2 ⟨rfl, by decide, by decide, .inr hu⟩
  have hsecond : splitComment? ('-' :: (t ++ trail)) = none := by
    obtain ⟨c, run, rfl⟩ := exists_cons_of_ne_nil hne
    have hc : c ≠ '-' := by
      rintro rfl
      exact absurd (hrun '-' mem_cons_self) (by decide)
    rw [htext]
    simp [splitComment?, hc]
  -- the word is a token, so it stands before the trail
  obtain ⟨token, hmem, htoken⟩ : ∃ token ∈
      (scanFrom front.byteSize quote ('-' :: '-' :: (t ++ trail))).tokens,
      token.stop = (front ++ '-' :: '-' :: run).byteSize := by
    rw [tokens_scanFrom _ _ (hdash _ _ (splitComment?_dashes_eq_none_iff.2 hnone)),
      tokens_scanFrom _ _ (hdash _ _ hsecond),
      tokens_scanFrom _ _ (piece?_eq_word_iff.2 ⟨htext, hne, hrun, hrest⟩)]
    simp [Piece.tokens, Piece.text, Nat.add_assoc]
  have hle := hstop token hmem
  rw [htoken] at hle
  simp only [byteSize_append, byteSize_cons] at hle
  obtain ⟨t', rfl, rfl⟩ := exists_append_of_byteSize_le htext.symm (by omega)
  have hhead : t'.head?.any isWordChar = false := by
    cases t' with
    | nil => rfl
    | cons c t' => exact hrest
  rw [append_assoc, startsWithFolded_hint hrest] at hnone
  rwa [startsWithFolded_hint hhead]

/-- No comment opens with a symbol if what stands behind the last token is taken away. -/
theorem splitComment?_symbol_front {s : Text} {c : Char}
    (hnone : splitComment? (c :: (s ++ trail)) = none)
    (hstop : ∀ token ∈ (scanFrom front.byteSize quote (c :: (s ++ trail))).tokens,
      token.stop ≤ (front ++ c :: s).byteSize) : splitComment? (c :: s) = none := by
  unfold splitComment?
  split
  · rename_i t heq
    cases heq
    have hdashes := splitComment?_front hnone hstop
    rwa [splitComment?] at hdashes
  · rename_i t heq
    cases heq
    exact absurd hnone (splitComment?_block_ne_none _)
  · rfl

theorem stop_of_mem_piece {piece : Piece} {token : Token}
    (h : token ∈ piece.tokens front.byteSize quote) :
    token.stop = (front ++ piece.text).byteSize := by
  rw [eq_of_mem_piece h, byteSize_append]

theorem lt_stop_of_mem_scanFrom {token : Token}
    (h : token ∈ (scanFrom front.byteSize quote t).tokens) : front.byteSize < token.stop := by
  have hstart := le_start_of_mem_scanFrom h
  have hlt := (laid_scanFrom _ _ _).1.start_lt_stop h
  omega

/-- Nothing is lost with what stands behind the last token of a text. -/
theorem tokens_scanFrom_front (front s trail : Text) (quote : Option OpenQuote)
    (hstop : ∀ token ∈ (scanFrom front.byteSize quote (s ++ trail)).tokens,
      token.stop ≤ (front ++ s).byteSize)
    (hlast : s = [] ∨ ∃ token ∈ (scanFrom front.byteSize quote (s ++ trail)).tokens,
      token.stop = (front ++ s).byteSize) :
    (scanFrom front.byteSize quote s).tokens =
      (scanFrom front.byteSize quote (s ++ trail)).tokens := by
  induction hlength : s.length using Nat.strongRecOn generalizing front s quote with
  | ind n ih =>
    subst hlength
    by_cases hne : s = []
    · subst hne
      rw [tokens_scanFrom_nil, eq_comm, eq_nil_iff_forall_not_mem]
      intro token hmem
      have hle := hstop token hmem
      have hlt := lt_stop_of_mem_scanFrom hmem
      rw [append_nil] at hle
      omega
    · obtain ⟨token, hmem, htoken⟩ := hlast.resolve_left hne
      obtain ⟨piece, rest, hpiece, hmem⟩ := exists_piece_of_mem hmem
      have hstep := tokens_scanFrom front.byteSize quote hpiece
      rw [← byteSize_append] at hstep
      have hbound : piece.text.byteSize ≤ s.byteSize := by
        rcases hmem with hmem | hmem
        · have := stop_of_mem_piece hmem
          simp only [byteSize_append] at *
          omega
        · have := lt_stop_of_mem_scanFrom hmem
          simp only [byteSize_append] at *
          omega
      obtain ⟨s', rfl, rfl⟩ :=
        exists_append_of_byteSize_le (append_of_piece? hpiece).1 hbound
      rw [append_assoc] at hpiece hstop hstep ⊢
      have hpiece' : piece? quote.isSome (piece.text ++ s') = some (piece, s') := by
        refine piece?_of_rest hpiece ?_ (fun _ _ hhead => ?_) ?_
        · rintro body rfl hnil
          -- a comment has no token, so the last one comes later
          have hlater := hmem.resolve_left (by simp [Piece.tokens])
          rw [hnil, tokens_scanFrom_nil] at hlater
          simp at hlater
        · cases s' with
          | nil => rfl
          | cons c s' => exact hhead
        · rintro c rfl - hnone
          exact splitComment?_symbol_front hnone hstop
      rw [hstep, tokens_scanFrom _ _ hpiece', ← byteSize_append]
      refine congrArg (_ ++ ·) (ih s'.length ?_ (front ++ piece.text) s' _ ?_ ?_ rfl)
      · exact length_lt_of_piece? hpiece'
      · intro token hlater
        rw [append_assoc]
        refine hstop token ?_
        rw [hstep]
        exact mem_append_right _ hlater
      · rcases hmem with hmem | hmem
        · have hown := stop_of_mem_piece hmem
          rw [htoken, ← append_assoc, byteSize_append (front ++ piece.text)] at hown
          exact .inl (byteSize_eq_zero_iff.1 (by omega))
        · exact .inr ⟨token, hmem, by rw [htoken, append_assoc]⟩

theorem divides_semicolon : Divides ';' :=
  ⟨by decide, by decide, by decide⟩

/-- What stands before a `;` that is read as a token is read in the same way whatever follows the
`;`, and that is read on its own. -/
theorem exists_scanFrom_semicolon (hquote : ∀ opened ∈ quote, isQuoteMark opened.mark)
    {body later : List Token} {terminator : Token} (hterminator : terminator.text = [';'])
    (h : (scanFrom front.byteSize quote t).tokens = body ++ terminator :: later) :
    ∃ before rest quote', t = before ++ ';' :: rest ∧
      terminator.stop = (front ++ (before ++ [';'])).byteSize ∧
      (∀ opened ∈ quote', isQuoteMark opened.mark) ∧
      body.foldl markAfter (quote.map OpenQuote.mark) = quote'.map OpenQuote.mark ∧
      later = (scanFrom (front ++ (before ++ [';'])).byteSize quote' rest).tokens ∧
      ∀ new, (scanFrom front.byteSize quote (before ++ ';' :: new)).tokens = body ++ terminator ::
        (scanFrom (front ++ (before ++ [';'])).byteSize quote' new).tokens := by
  obtain ⟨before, rest, pieces, mark, rfl, hstart, hcuts, rfl, hscan⟩ := exists_cuts_at h
  rw [hterminator, singleton_append] at hcuts hscan
  have hmarks := isQuoteMark_quoteFrom hquote front.byteSize pieces
  have hplace : (front ++ before).byteSize + ';'.utf8Size =
      (front ++ (before ++ [';'])).byteSize := by
    simp [Nat.add_assoc]
  have hplain := tokens_scanFrom_plain (c := ';') (by decide) (by decide) (by decide) (by decide)
    (by decide) (front ++ before).byteSize _ hmarks
  rw [hplace] at hplain
  rw [hplain] at hscan
  cases hscan
  refine ⟨before, rest, _, rfl, rfl, hmarks, ?_, rfl, fun new => ?_⟩
  · rw [hcuts.foldl_markAfter rfl hquote, hcuts.map_quoteFrom rfl]
  · rw [(hcuts.of_delimits (divides_semicolon.delimits divides_semicolon rest new)).tokens_scanFrom
      rfl, ← byteSize_append, hplain]

end Token

end SqlScript
