import SqlScript.Proofs.Comments
import SqlScript.Proofs.QuotedLiterals

/-!
# Texts without comments

A text that has no comment and leaves no literal open is a row with blanks between its lexemes
(`Layout.exists_row`). There is one such text, so the row has one index. There is no comment where
neither `--` nor `/*` stands (`Uncommented.isCommentFree`).

In small letters neither of them stands there either (`Uncommented.exists_lowerCase`). A word may
fall into several lexemes there, since a dotted capital `İ` becomes two characters. So the text is
compared character by character (`Recased`) : a part of a word becomes one or more characters, none
of which is a quote mark or takes part in a comment.

All passes take a row to a row, and with one index they do so whatever stands in it. So they end,
and preparing a text without comments succeeds (`BigQuery.exists_prepare_of_uncommented`).
-/

namespace SqlScript

open List Option

/-! ## Literals by characters -/

theorem isQuoteMark_of_isWordChar {c : Char} (h : isWordChar c) : Text.isQuoteMark c = false := by
  refine Bool.eq_false_iff.2 fun hquote => ?_
  rw [isWordChar_of_isQuoteMark hquote] at h
  exact absurd h (by decide)

namespace Text

/-- The mark of the literal that is open after the characters, none of which is in a comment. -/
def markAfter (mark : Option Char) (t : Text) : Option Char :=
  t.foldl (fun mark c => Piece.markAfter mark (.symbol c)) mark

theorem markAfter_append (mark : Option Char) (a b : Text) :
    markAfter mark (a ++ b) = markAfter (markAfter mark a) b :=
  foldl_append

variable {mark : Option Char}

/-- Characters that are no quote marks neither open nor close a literal. -/
theorem markAfter_of_forall (hmark : ∀ opened ∈ mark, isQuoteMark opened) {t : Text}
    (h : ∀ c ∈ t, isQuoteMark c = false) : markAfter mark t = mark := by
  induction t with
  | nil => rfl
  | cons c t ih =>
    rw [forall_mem_cons] at h
    have hsame : Piece.markAfter mark (.symbol c) = mark := by
      cases mark with
      | none => simp [Piece.markAfter, h.1]
      | some opened =>
        have hne : c ≠ opened := by
          rintro rfl
          exact absurd (hmark c rfl) (by simp [h.1])
        simp [Piece.markAfter, hne]
    rw [markAfter, foldl_cons, hsame]
    exact ih h.2

end Text

instance (t : Text) : Decidable (Uncommented t) :=
  decidable_of_iff (¬ "--".toList <:+: t ∧ ¬ "/*".toList <:+: t)
    ⟨fun h => ⟨h.1, h.2⟩, fun h => ⟨h.line, h.block⟩⟩

theorem Uncommented.of_isInfix {a b : Text} (hb : Uncommented b) (h : a <:+: b) : Uncommented a :=
  ⟨fun hline => hb.line (hline.trans h), fun hblock => hb.block (hblock.trans h)⟩

/-- The literal that the tokens of a text without comments leave open is told by its characters. -/
theorem foldl_markAfter_scanFrom {t : Text} (h : Uncommented t) (offset : Nat)
    (quote : Option OpenQuote)
    (hquote : ∀ opened ∈ quote, Text.isQuoteMark opened.mark) :
    (Token.scanFrom offset quote t).tokens.foldl Token.markAfter (quote.map OpenQuote.mark) =
      Text.markAfter (quote.map OpenQuote.mark) t := by
  induction quote, t using Token.piece_induction generalizing offset with
  | nil quote =>
    rw [Token.tokens_scanFrom_nil]
    rfl
  | piece quote piece rest hpiece ih =>
    have hmark : ∀ opened ∈ quote.map OpenQuote.mark, Text.isQuoteMark opened := by
      intro opened hopened
      obtain ⟨quote', hsome, rfl⟩ := map_eq_some_iff.1 hopened
      exact hquote quote' hsome
    have hafter : Text.markAfter (quote.map OpenQuote.mark) piece.text =
        (piece.quoteAfter offset quote).map OpenQuote.mark := by
      rw [Piece.map_quoteAfter]
      cases piece with
      | word run =>
        refine Text.markAfter_of_forall hmark fun c hc => ?_
        exact isQuoteMark_of_isWordChar ((piece?_eq_word_iff.1 hpiece).2.2.1 c hc)
      | symbol c => rfl
      | blank c =>
        refine Text.markAfter_of_forall hmark (forall_mem_singleton.2 ?_)
        refine Bool.eq_false_iff.2 fun hc => ?_
        have hblank := (piece?_eq_blank_iff.1 hpiece).2
        rw [isBlank_of_isQuoteMark hc] at hblank
        exact absurd hblank (by decide)
      | comment body =>
        have hcomment := (splitComment?_eq_some_iff.1 (piece?_eq_comment_iff.1 hpiece).2).2
        exact absurd hcomment (h.commentFree [] body rest rfl)
    rw [Token.tokens_scanFrom _ _ hpiece, foldl_append, Token.foldl_markAfter_piece hpiece hquote,
      ih _ (h.of_isInfix (suffix_append _ rest).isInfix) _
        (Piece.isQuoteMark_quoteAfter hquote offset piece), Text.markAfter_append, hafter]

/-! ## Rows -/

namespace Layout

variable {t front : Text}

/-- A lexeme with blanks behind it, in the only text there is. -/
def Cell.single (lexeme : Lexeme) (gap : Text) (h : gap.Blank) : Cell Unit where
  lexeme := lexeme
  gap _ := gap
  filler _ := filler_of_blank h
  named := .inl inferInstance
  number _ _ := h
  even _ := ⟨fun _ => h, (Classical.em (gap = [])).imp (fun h _ => h) fun h _ => h⟩

/-- Induction over the chunks of a text. -/
theorem chunk_induction {motive : Text → Prop} (t : Text) (nil : motive [])
    (cons : ∀ (chunk : Chunk) (rest : Text), IsChunk chunk rest →
      chunks (chunk.text ++ rest) = chunk :: chunks rest → motive rest →
      motive (chunk.text ++ rest)) : motive t := by
  induction hlength : t.length using Nat.strongRecOn generalizing t with
  | ind n ih =>
    subst hlength
    cases hchunk : chunk? t with
    | none => exact eq_nil_of_chunk?_eq_none hchunk ▸ nil
    | some found =>
      obtain ⟨chunk, rest⟩ := found
      have hrest := ih _ (length_lt_of_chunk? hchunk) rest rfl
      have hread := isChunk_of_chunk? hchunk
      have hchunks := chunks_of_chunk? hchunk
      obtain rfl := (append_of_chunk? hchunk).1
      exact cons chunk rest hread hchunks hrest

/-- Whether none of the chunks is a comment, and no two dashes stand side by side. Outside of
literals these belong to a comment or to a hint. -/
def isCommentFree : List Chunk → Bool
  | [] => true
  | .comment _ :: _ => false
  | chunk :: chunks =>
    !(chunk == .code ['-'] && (chunks.flatMap Chunk.text).head? == some '-') &&
      isCommentFree chunks

theorem isCommentFree_chunk (lexeme : Lexeme) (chunks : List Chunk) :
    isCommentFree (lexeme.chunk :: chunks) =
      (!(lexeme.chunk == .code ['-'] && (chunks.flatMap Chunk.text).head? == some '-') &&
        isCommentFree chunks) := by
  cases lexeme <;> rfl

/-- A text without comments is a row behind some blanks. -/
theorem exists_row (hends : Ends front t) (hfree : isCommentFree (chunks t)) :
    ∃ (lead : Text) (row : Row Unit), lead.Blank ∧ Row.Legible row ∧
      t = lead ++ Row.text () row := by
  induction t using chunk_induction generalizing front with
  | nil => exact ⟨[], [], Text.blank_nil, .nil, rfl⟩
  | cons chunk rest hread hchunks ih =>
    rw [hchunks] at hfree
    cases hread with
    | @blank c _ hblank =>
      have hgap : Text.Blank [c] := forall_mem_singleton.2 hblank
      obtain ⟨lead, row, hlead, hlegible, rfl⟩ :=
        ih (hends.heading (filler_of_blank hgap).heading) hfree
      exact ⟨c :: lead, row, hgap.append hlead, hlegible, rfl⟩
    | comment hcomment => cases hfree
    | lexeme lexeme hapart =>
      rw [Lexeme.text_chunk] at hends
      rw [isCommentFree_chunk, Bool.and_eq_true, flatMap_text_chunks] at hfree
      obtain ⟨hdash, hrest⟩ := hfree
      have happart : Apart lexeme.text rest := hapart fun hcode hhead => by
        simp [hcode, hhead] at hdash
      obtain ⟨lead, row, hlead, hlegible, hrow⟩ := ih (hends.lexeme happart) hrest
      refine ⟨[], .single lexeme lead hlead :: row, Text.blank_nil, ?_, ?_⟩
      · refine isChain_cons.2 ⟨fun next hnext s => ?_, hlegible⟩
        obtain ⟨later, rfl⟩ := head?_eq_some_iff.1 hnext
        by_cases hnil : lead = []
        · rw [hrow, hnil] at happart
          exact .inr (happart.of_append next.lexeme.text_ne_nil)
        · exact .inl hnil
      · rw [Lexeme.text_chunk, hrow]
        rfl
    | @unclosed mark t hquote hopen =>
      have hmark := foldl_markAfter_unclosed hquote hopen front
      rw [Chunk.text, append_nil, Ends, hmark] at hends
      cases hends

end Layout

open Layout

/-- The row has the tokens of the text, and trimmed the text of the trimmed text. -/
theorem Layout.exists_trimmed {t : Text} (h : isCommentFree (chunks t))
    (hclosed : ∃ run, tokenize t = .ok run) : ∃ (lead : Text) (row : Row Unit),
      lead.Blank ∧ Row.Legible row ∧ t = lead ++ Row.text () row ∧ Row.keys row = t.keys ∧
      Row.text () (Row.trimEnd row) = t.trim := by
  obtain ⟨run, hrun⟩ := hclosed
  obtain ⟨lead, row, hlead, hlegible, rfl⟩ := exists_row (ends_of_tokenize hrun) h
  have hkeys := Row.map_key_tokens_text hlegible () (filler_of_blank hlead).heading
  refine ⟨lead, row, hlead, hlegible, rfl, hkeys.symm, ?_⟩
  rw [Row.text_trim, Text.trim, Text.trim, Text.trimStart, Text.trimStart,
    dropWhile_append_of_pos hlead]

/-- Where neither `--` nor `/*` stands in a text, there is no comment. -/
theorem Uncommented.isCommentFree {t : Text} (h : Uncommented t) : isCommentFree (chunks t) := by
  induction t using chunk_induction with
  | nil =>
    rw [chunks_nil]
    rfl
  | cons chunk rest hread hchunks ih =>
    have hrest := ih (h.of_isInfix (suffix_append chunk.text rest).isInfix)
    rw [hchunks]
    cases hread with
    | blank => exact hrest
    | comment hcomment => exact absurd hcomment (h.commentFree [] _ rest rfl)
    | lexeme lexeme =>
      rw [isCommentFree_chunk, hrest, Bool.and_true, Bool.not_eq_true', Bool.and_eq_false_imp,
        flatMap_text_chunks]
      intro hcode
      refine beq_eq_false_iff_ne.2 fun hhead => ?_
      obtain ⟨later, rfl⟩ := head?_eq_some_iff.1 hhead
      exact h.line ⟨[], later, by rw [eq_of_beq hcode]; rfl⟩
    | unclosed => exact hrest

theorem Uncommented.exists_row {t : Text} {run : List Token} (hstrict : tokenize t = .ok run)
    (h : Uncommented t) : ∃ (lead : Text) (row : Row Unit), lead.Blank ∧ Row.Legible row ∧
      t = lead ++ Row.text () row :=
  Layout.exists_row (ends_of_tokenize hstrict) h.isCommentFree

/-! ## Small letters -/

/-- Whether the character is no quote mark and takes part in no comment. -/
def isOrdinary (c : Char) : Bool :=
  !Text.isQuoteMark c && c != '-' && c != '/' && c != '*'

theorem isOrdinary_of_isWordChar {c : Char} (h : isWordChar c) : isOrdinary c := by
  have hne : ∀ {d : Char}, isWordChar d = false → c ≠ d := by
    rintro d hd rfl
    exact absurd (h.symm.trans hd) (by decide)
  simp only [isOrdinary, isQuoteMark_of_isWordChar h, Bool.not_false, Bool.true_and,
    Bool.and_eq_true, bne_iff_ne]
  exact ⟨⟨hne (by decide), hne (by decide)⟩, hne (by decide)⟩

/-- The second text is the first one with ordinary characters in place of some parts of words. -/
inductive Recased : Text → Text → Prop
  | nil : Recased [] []
  | keep (c : Char) {a b : Text} (later : Recased a b) : Recased (c :: a) (c :: b)
  | change {c : Char} {new a b : Text} (hword : isWordChar c = true) (hne : new ≠ [])
      (hnew : ∀ d ∈ new, isOrdinary d = true) (later : Recased a b) : Recased (c :: a) (new ++ b)

namespace Recased

variable {a b : Text}

theorem append_left (t : Text) (h : Recased a b) : Recased (t ++ a) (t ++ b) := by
  induction t with
  | nil => exact h
  | cons c t ih => exact .keep c ih

/-- A word in lower case. -/
theorem lowercase_append {t : Text} (hword : ∀ c ∈ t, isWordChar c) (h : Recased a b) :
    Recased (t ++ a) (t.lowercase ++ b) := by
  have hfrom : ∀ before, Recased (t ++ a) (Text.lowercaseFrom before t ++ b) := by
    induction t with
    | nil => exact fun _ => h
    | cons c t ih =>
      rw [forall_mem_cons] at hword
      intro before
      rw [Text.lowercaseFrom, append_assoc]
      have hone : ∀ {d : Char}, Lowered c d → Recased (c :: t ++ a)
          ([d] ++ (Text.lowercaseFrom (c :: before) t ++ b)) := fun hd =>
        .change hword.1 (cons_ne_nil _ _) (forall_mem_singleton.2
          (isOrdinary_of_isWordChar (hd.isWordChar_eq.trans hword.1))) (ih hword.2 _)
      split
      · rename_i hsigma
        obtain rfl := eq_of_beq hsigma
        exact hone (lowered_smallSigma before t)
      · by_cases hdotted : c = 'İ'
        · subst hdotted
          have hsmall : lowercaseChar 'İ' = ['i', '\u0307'] := rfl
          rw [hsmall]
          refine .change hword.1 (cons_ne_nil _ _) ?_ (ih hword.2 _)
          exact forall_mem_cons.2 ⟨by decide, forall_mem_singleton.2 (by decide)⟩
        · obtain ⟨d, hd, hlowered⟩ := lowered_lowercaseChar hdotted
          rw [hd]
          exact hone hlowered
  exact hfrom []

/-- A character that is not ordinary stands in both texts. -/
theorem exists_of_append (h : Recased a b) {x y : Text} {d : Char} (hb : b = x ++ d :: y)
    (hd : isOrdinary d = false) : ∃ x' a', a = x' ++ d :: a' ∧ Recased a' y := by
  induction h generalizing x with
  | nil => exact absurd hb.symm (by simp)
  | @keep c a b later ih =>
    cases x with
    | nil =>
      cases hb
      exact ⟨[], a, rfl, later⟩
    | cons c' x =>
      obtain ⟨x', a', rfl, hlater⟩ := ih (List.cons.inj hb).2
      exact ⟨c :: x', a', rfl, hlater⟩
  | @change c new a b hword hne hnew later ih =>
    have hmem : ∀ {x y : Text}, new ≠ x ++ d :: y := by
      rintro x y rfl
      exact absurd (hnew d (by simp)) (by simp [hd])
    rcases append_eq_append_iff.1 hb with ⟨x, rfl, hrest⟩ | ⟨z, rfl, hrest⟩
    · obtain ⟨x', a', rfl, hlater⟩ := ih hrest
      exact ⟨c :: x', a', rfl, hlater⟩
    · cases z with
      | nil =>
        obtain ⟨x', a', rfl, hlater⟩ := ih (x := []) hrest.symm
        exact ⟨c :: x', a', rfl, hlater⟩
      | cons e z =>
        cases hrest
        exact absurd rfl hmem

theorem head?_eq (h : Recased a b) {d : Char} {y : Text} (hb : b = d :: y)
    (hd : isOrdinary d = false) : a.head? = some d := by
  cases h with
  | nil => exact absurd hb (by simp)
  | keep c later => exact congrArg some (List.cons.inj hb).1
  | @change c new a b hword hne hnew later =>
    obtain ⟨e, new, rfl⟩ := exists_cons_of_ne_nil hne
    obtain ⟨rfl, -⟩ := List.cons.inj hb
    exact absurd (hnew e mem_cons_self) (by simp [hd])

theorem isInfix (h : Recased a b) {c d : Char} (hc : isOrdinary c = false)
    (hd : isOrdinary d = false) (hwithin : [c, d] <:+: b) : [c, d] <:+: a := by
  obtain ⟨x, y, rfl⟩ := hwithin
  obtain ⟨x', a', rfl, hlater⟩ := h.exists_of_append (x := x) (y := d :: y) (by simp) hc
  obtain ⟨y', rfl⟩ := head?_eq_some_iff.1 (hlater.head?_eq rfl hd)
  exact ⟨x', y', by simp⟩

theorem uncommented (h : Recased a b) (ha : Uncommented a) : Uncommented b :=
  ⟨fun hline => ha.line (h.isInfix (by decide) (by decide) hline),
    fun hblock => ha.block (h.isInfix (by decide) (by decide) hblock)⟩

theorem markAfter_eq (h : Recased a b) {mark : Option Char}
    (hmark : ∀ opened ∈ mark, Text.isQuoteMark opened) :
    Text.markAfter mark a = Text.markAfter mark b := by
  induction h generalizing mark with
  | nil => rfl
  | @keep c a b later ih =>
    refine ih fun opened hopened => ?_
    cases mark with
    | none =>
      simp only [Piece.markAfter, mem_def] at hopened
      split at hopened
      · rename_i hquote
        exact Option.some.inj hopened ▸ hquote
      · cases hopened
    | some other =>
      simp only [Piece.markAfter, mem_def] at hopened
      split at hopened
      · cases hopened
      · exact hmark opened hopened
  | @change c new a b hword hne hnew later ih =>
    have hquotes : ∀ d ∈ new, Text.isQuoteMark d = false := by
      intro d hd
      have hordinary := hnew d hd
      simp only [isOrdinary, Bool.and_eq_true, Bool.not_eq_true'] at hordinary
      exact hordinary.1.1.1
    rw [Text.markAfter_append, Text.markAfter_of_forall hmark hquotes, ← ih hmark,
      ← singleton_append, Text.markAfter_append, Text.markAfter_of_forall hmark
        (forall_mem_singleton.2 (isQuoteMark_of_isWordChar hword))]

end Recased

namespace Layout

theorem Strand.recased_lowerText (strand : Strand) : Recased strand.text strand.lowerText := by
  induction strand with
  | nil => exact .nil
  | cons part strand ih =>
    obtain ⟨lexeme, gap⟩ := part
    have hrest := ih.append_left gap
    cases lexeme with
    | word w => exact hrest.lowercase_append (List.all_eq_true.1 w.chars)
    | symbol s =>
      have hsame : Text.lowercase [s.char] = [s.char] := Text.lowercase_singleton s.word
      rw [text, lowerText, Lexeme.lowerText, hsame]
      exact hrest.append_left _
    | literal l => exact hrest.append_left _

end Layout

open BigQuery

/-- In small letters a text without comments is one again. -/
theorem Uncommented.exists_lowerCase {sql : Text} {run : List Token}
    (hstrict : tokenize sql = .ok run) (h : Uncommented sql) :
    ∃ low run', lowerCase sql = .ok low ∧ tokenize low = .ok run' ∧ Uncommented low := by
  obtain ⟨lead, row, hlead, hlegible, hsql⟩ := h.exists_row hstrict
  have hrecased := (Row.strand () row).recased_lowerText.append_left lead
  have htext : sql = lead ++ (Row.strand () row).text := hsql
  rw [← htext] at hrecased
  have hlower := Strand.lowerCase_text (filler_of_blank hlead).heading (hlegible.strand ())
  rw [← htext] at hlower
  have hfree := hrecased.uncommented h
  refine ⟨_, _, hlower, tokenize_of_foldl ?_, hfree⟩
  have hends := foldl_markAfter_scanFrom h 0 none (by simp)
  rw [map_none, hrecased.markAfter_eq (by simp)] at hends
  exact (foldl_markAfter_scanFrom hfree 0 none (by simp)).trans
    (hends.symm.trans (ends_of_tokenize hstrict))

/-! ## All passes -/

/-- Preparing a text without comments and open literals succeeds : every loop of every pass ends. -/
theorem BigQuery.exists_prepare_of_uncommented {sql : Text} {run : List Token}
    (hstrict : tokenize sql = .ok run) (hfree : Uncommented sql) :
    ∃ out, prepare sql = .ok out := by
  obtain ⟨low, run', hlower, hstrict', hlow⟩ := hfree.exists_lowerCase hstrict
  obtain ⟨lead, row, hlead, hlegible, rfl⟩ := hlow.exists_row hstrict'
  have hprepared := Row.exists_prepare (fun _ : Unit => (filler_of_blank hlead).heading) hlegible
    (.inr inferInstance) fun _ => hlower
  obtain ⟨row', -, hprepare⟩ := hprepared
  exact ⟨_, hprepare ()⟩

theorem BigQuery.exists_prepare_dotted :
    Uncommented "SELECT İ, @ + 'A' FROM T GROUP BY İ ORDER BY $".toList ∧
      ∃ out, prepare "SELECT İ, @ + 'A' FROM T GROUP BY İ ORDER BY $".toList = .ok out :=
  have hfree : Uncommented "SELECT İ, @ + 'A' FROM T GROUP BY İ ORDER BY $".toList := by
    decide +kernel
  ⟨hfree, exists_prepare_of_uncommented (tokenize_of_foldl (by decide +kernel)) hfree⟩

end SqlScript
