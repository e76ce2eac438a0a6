import SqlScript.Proofs.Chunk
import SqlScript.Proofs.ConcatRow
import SqlScript.Proofs.PositionRow

/-!
# Statements with and without their comments

Where the comments of a text are clear, the passes that prepare a text for BigQuery give the same
tokens with the comments and with a space for each of them
(`BigQuery.map_text_prepare_blankComments`).

The text is read twice, with its comments and without (`Reading`) : chunk by chunk it is a filler
and entries with fillers behind them, and only the fillers differ. So both texts in small letters
are one row with two indices (`exists_lowerCase`), and every pass takes a row to a row
(`Row.exists_prepare`).

A line comment is not clear. The passes trim what they put together, so that the newline behind it
is lost and it runs on over the code behind it (`BigQuery.prepare_lineComment`).
-/

namespace SqlScript

open List Chunk Token Layout.Lexeme Layout.Entry BigQuery.CommonTable Text

/-! ## Closed comments -/

theorem isComment_of_isClosedComment {body : Text} (h : isClosedComment body) (rest : Text) :
    IsComment body rest := by
  have hcomment := (splitComment?_eq_some_iff.1 (beq_iff_eq.1 h)).2
  cases hcomment with
  | line _ hline hhint => exact .line rest hline hhint
  | block _ hblock => exact .block rest hblock

theorem Chunk.blank_blanked (body : Text) :
    (comment body).blanked.Blank ∧ (comment body).blanked ≠ [] := by
  rw [blanked]
  split
  · exact ⟨forall_mem_cons.2 ⟨by decide, forall_mem_singleton.2 (by decide)⟩,
      cons_ne_nil _ _⟩
  · exact ⟨forall_mem_singleton.2 (by decide), cons_ne_nil _ _⟩

namespace Layout

theorem exists_of_isClosedComment {body : Text} (h : isClosedComment body)
    (hhead : body.head? = some '/') :
    ∃ s, body = '/' :: '*' :: (s ++ ['*', '/']) ∧ ¬ ['*', '/'] <:+: s := by
  cases isComment_of_isClosedComment h [' '] with
  | line => exact absurd (Option.some.inj hhead) (by decide)
  | block _ hblock => exact ⟨_, rfl, hblock⟩

theorem filler_of_isClosedComment {body : Text} (h : isClosedComment body)
    (hhead : body.head? = some '/')
    (hfilter : isClosedComment (body.filter (· != '\''))) : Filler body := by
  obtain ⟨s, rfl, -⟩ := exists_of_isClosedComment h hhead
  obtain ⟨s', heq, hclosed⟩ := exists_of_isClosedComment hfilter rfl
  have hs : s.filter (· != '\'') = s' := by simpa using heq
  rw [← hs] at hclosed
  exact .comment hclosed .nil

/-! ## Entries of lexemes -/

variable {lexeme : Lexeme}

theorem Lexeme.named_of_isPlain (h : lexeme.chunk.isPlain) :
    ∀ key ∈ lexeme.keys, key.1 ≠ ['@'] := by
  cases lexeme with
  | word w =>
    simp only [chunk, isPlain, Bool.and_eq_true, bne_iff_ne] at h
    rw [keys_of_isLiteral_eq_false rfl, forall_mem_singleton]
    exact h.1.2
  | symbol s =>
    simp only [chunk, isPlain, Bool.and_eq_true, bne_iff_ne] at h
    rw [keys_of_isLiteral_eq_false rfl, forall_mem_singleton]
    exact h.1.2
  | literal l =>
    intro key hkey
    obtain ⟨token, htoken, rfl⟩ := mem_map.1 hkey
    exact bne_iff_ne.1 (all_eq_true.1 h token htoken)

theorem Lexeme.plain_of_isPlain (h : lexeme.chunk.isPlain)
    (hliteral : lexeme.isLiteral = false) : 'İ' ∉ lexeme.text ∧ lexeme.text ≠ ['$'] := by
  have hplain : (code lexeme.text).isPlain := by
    cases lexeme with
    | word w => exact h
    | symbol s => exact h
    | literal l => exact absurd hliteral (by simp [isLiteral])
  simp only [isPlain, Bool.and_eq_true, bne_iff_ne] at hplain
  exact ⟨by simpa using hplain.2, hplain.1.1⟩

theorem Lexeme.isTouchy_of_isNumber (h : lexeme.isNumber) : lexeme.chunk.isTouchy := by
  cases lexeme with
  | word w => exact absurd h nofun
  | symbol s => exact absurd h nofun
  | literal l => exact isQuotedNumber_iff.2 (exists_of_isNumber h)

theorem Lexeme.isTouchy_of_lowerText (h : lexeme.lowerText = ['b', 'y']) :
    lexeme.chunk.isTouchy := by
  cases lexeme with
  | word w => exact beq_iff_eq.2 h
  | symbol s => exact beq_iff_eq.2 h
  | literal l =>
    obtain ⟨hmark, -⟩ := List.cons.inj h
    have hquote := l.quote
    rw [hmark] at hquote
    exact absurd hquote (by decide)

variable {σ : Type}

/-- The lexeme with fillers behind it. Behind a touchy lexeme they are blanks. -/
def Entry.ofLexeme (lexeme : Lexeme) (hplain : lexeme.chunk.isPlain = true) (gap : σ → Text)
    (hfiller : ∀ s, Filler (gap s)) (hempty : (∀ s, gap s = []) ∨ ∀ s, gap s ≠ [])
    (hblank : lexeme.chunk.isTouchy = true → ∀ s, (gap s).Blank) : Entry σ where
  lexeme := lexeme
  gap := gap
  filler := hfiller
  plain h := (plain_of_isPlain hplain h).1
  dollar h := (plain_of_isPlain hplain h).2
  named := named_of_isPlain hplain
  number h := hblank (isTouchy_of_isNumber h)
  even h := ⟨hblank (isTouchy_of_lowerText h), hempty⟩

/-! ## Reading a text twice -/

end Layout

/-- The chunk as it stands, or with a space for a comment. -/
def Chunk.shown (kept : Bool) (chunk : Chunk) : Text :=
  if kept then chunk.text else chunk.blanked

namespace Layout

theorem Lexeme.shown_chunk (kept : Bool) (lexeme : Lexeme) :
    lexeme.chunk.shown kept = lexeme.text := by
  cases kept <;> cases lexeme <;> rfl

/-- The chunks with and without their comments are fillers and entries. `last` is the last word,
symbol or literal before the chunks. -/
structure Reading (last : Option Chunk) (chunks : List Chunk) (lead : Bool → Text)
    (entries : List (Entry Bool)) : Prop where
  heading : ∀ kept, Heading (lead kept)
  filler : last.isSome = true → ∀ kept, Filler (lead kept)
  empty : (∀ kept, lead kept = []) ∨ ∀ kept, lead kept ≠ []
  blank : last.any isTouchy = true → ∀ kept, (lead kept).Blank
  text : ∀ kept, chunks.flatMap (shown kept) =
    lead kept ++ Strand.text (strand kept entries)
  beside : entries.IsChain Beside

namespace Reading

variable {last : Option Chunk} {chunks : List Chunk} {lead : Bool → Text}
  {entries : List (Entry Bool)}

theorem nil (last : Option Chunk) : Reading last [] (fun _ => []) [] where
  heading _ := .nil
  filler _ _ := .nil
  empty := .inl fun _ => rfl
  blank _ _ := blank_nil
  text _ := rfl
  beside := .nil

/-- A blank or a comment goes to the text in front. -/
theorem fill (h : Reading last chunks lead entries) {chunk : Chunk}
    (hheading : ∀ kept, Heading (chunk.shown kept))
    (hfiller : last.isSome → ∀ kept, Filler (chunk.shown kept))
    (hne : ∀ kept, chunk.shown kept ≠ [])
    (hblank : last.any isTouchy → ∀ kept, (chunk.shown kept).Blank) :
    Reading last (chunk :: chunks) (fun kept => chunk.shown kept ++ lead kept) entries where
  heading kept := (hheading kept).append (h.heading kept)
  filler hsome kept := (hfiller hsome kept).append (h.filler hsome kept)
  empty := .inr fun kept => append_ne_nil_of_left_ne_nil (hne kept) _
  blank htouchy kept := (hblank htouchy kept).append (h.blank htouchy kept)
  text kept := by rw [flatMap_cons, h.text kept, append_assoc]
  beside := h.beside

/-- A lexeme starts a new entry, with the text in front behind it. -/
theorem lexeme {lexeme : Lexeme} (h : Reading (some lexeme.chunk) chunks lead entries)
    (hplain : lexeme.chunk.isPlain)
    (hapart : Apart lexeme.text (chunks.flatMap Chunk.text)) :
    Reading last (lexeme.chunk :: chunks) (fun _ => [])
      (.ofLexeme lexeme hplain lead (h.filler rfl) h.empty h.blank :: entries) where
  heading _ := .nil
  filler _ _ := .nil
  empty := .inl fun _ => rfl
  blank _ _ := Text.blank_nil
  text kept := by
    rw [flatMap_cons, h.text kept, Lexeme.shown_chunk]
    rfl
  beside := by
    refine isChain_cons.2 ⟨fun next hnext kept => ?_, h.beside⟩
    obtain ⟨later, rfl⟩ := head?_eq_some_iff.1 hnext
    rcases h.empty with hnil | hne
    · -- the next lexeme stands directly behind this one
      have htext : chunks.flatMap Chunk.text =
          next.lexeme.text ++ (next.gap true ++ Strand.text (Entry.strand true later)) := by
        have hkept := h.text true
        rw [hnil true] at hkept
        exact hkept
      rw [htext] at hapart
      exact .inr (Apart.of_append next.lexeme.text_ne_nil hapart)
    · exact .inl (hne kept)

end Reading

/-! ## Texts that are read to the end -/

variable {t front : Text}

theorem foldl_markAfter_unclosed {mark : Char} (hquote : isQuoteMark mark)
    (hopen : mark ∉ t) (front : Text) :
    (scanFrom front.byteSize none (mark :: t)).tokens.foldl markAfter none = some mark := by
  have hpiece : piece? false (mark :: t) = some (.symbol mark, t) :=
    piece?_eq_symbol_iff.2 ⟨rfl, isWordChar_of_isQuoteMark hquote, isBlank_of_isQuoteMark hquote,
      .inr (splitComment?_of_isQuoteMark hquote t)⟩
  have hplace : front.byteSize + (Piece.symbol mark).text.byteSize = (front ++ [mark]).byteSize :=
    (byteSize_append _ _).symm
  have hfirst : markAfter none
      ⟨front.byteSize, front.byteSize + mark.utf8Size, [mark], false⟩ = some mark := by
    rw [markAfter, if_pos (isQuote_opening ⟨mark, [], hquote, not_mem_nil⟩ _ _)]
    rfl
  rw [tokens_scanFrom _ none hpiece, hplace, Piece.tokens, singleton_append,
    foldl_cons, Option.isSome_none, hfirst]
  refine foldl_markAfter_inside ?_
  intro token hmem htext
  obtain ⟨a, after, rfl, -⟩ := whole_scanFrom t (front ++ [mark]) _
    (.inl (by simp [isWordChar_of_isQuoteMark hquote])) token hmem
  exact hopen (by simp [htext])

/-- No literal is open behind the text. -/
def Ends (front t : Text) : Prop :=
  (scanFrom front.byteSize none t).tokens.foldl markAfter none = none

theorem ends_of_tokenize {run : List Token} (h : tokenize t = .ok run) : Ends [] t := by
  have hopen := map_mark_openQuote 0 none t (by simp)
  exact hopen.symm.trans (congrArg (·.openQuote.map OpenQuote.mark) (scan_of_tokenize h))

theorem Ends.heading {lead : Text} (h : Ends front (lead ++ t)) (hlead : Heading lead) :
    Ends (front ++ lead) t := by
  rw [Ends, tokens_scanFrom_heading _ hlead, ← byteSize_append] at h
  exact h

theorem Ends.lexeme {lexeme : Lexeme} (h : Ends front (lexeme.text ++ t))
    (hapart : Apart lexeme.text t) : Ends (front ++ lexeme.text) t := by
  rw [Ends, tokens_scanFrom_append _ lexeme hapart, foldl_append,
    lexeme.foldl_markAfter_tokens, ← byteSize_append] at h
  exact h

theorem isClear_chunk (last : Option Chunk) (lexeme : Lexeme) (chunks : List Chunk) :
    isClear last (lexeme.chunk :: chunks) = (lexeme.chunk.isPlain &&
      !(lexeme.chunk == .code ['-'] && (chunks.flatMap Chunk.text).head? == some '-') &&
      isClear (some lexeme.chunk) chunks) := by
  cases lexeme <;> rfl

/-- A clear text is read with and without its comments. -/
theorem exists_reading {last : Option Chunk} (hends : Ends front t)
    (hclear : isClear last (chunks t)) : ∃ lead entries, Reading last (chunks t) lead entries := by
  induction hlength : t.length using Nat.strongRecOn generalizing t front last with
  | ind n ih =>
    subst hlength
    cases hchunk : chunk? t with
    | none =>
      rw [eq_nil_of_chunk?_eq_none hchunk, chunks_nil]
      exact ⟨_, _, .nil last⟩
    | some found =>
      obtain ⟨chunk, rest⟩ := found
      have hshort := length_lt_of_chunk? hchunk
      have hread := isChunk_of_chunk? hchunk
      rw [chunks_of_chunk? hchunk] at hclear ⊢
      rw [← (append_of_chunk? hchunk).1] at hends
      cases hread with
      | @blank c _ hblank =>
        have hgap : Filler [c] := .blank hblank .nil
        have hshown : ∀ kept, (Chunk.blank c).shown kept = [c] := fun kept => by cases kept <;> rfl
        obtain ⟨lead, entries, hreading⟩ :=
          ih rest.length hshort (hends.heading hgap.heading) hclear rfl
        refine ⟨_, _, hreading.fill ?_ ?_ ?_ ?_⟩ <;> simp only [hshown]
        · exact fun _ => hgap.heading
        · exact fun _ _ => hgap
        · exact fun _ => cons_ne_nil _ _
        · exact fun _ _ => forall_mem_singleton.2 hblank
      | @comment body _ hcomment =>
        rw [isClear, Bool.and_eq_true, Bool.and_eq_true] at hclear
        obtain ⟨⟨hclosed, hplace⟩, hclear⟩ := hclear
        have hbody : Heading body := by
          simpa using Heading.comment (isComment_of_isClosedComment hclosed) .nil
        obtain ⟨hspace, hne⟩ := Chunk.blank_blanked body
        obtain ⟨lead, entries, hreading⟩ := ih rest.length hshort (hends.heading hbody) hclear rfl
        refine ⟨_, _, hreading.fill (fun kept => ?_) (fun hsome kept => ?_) (fun kept => ?_) ?_⟩
        · cases kept with
          | true => exact hbody
          | false => exact (filler_of_blank hspace).heading
        · cases kept with
          | true =>
            simp only [Option.isNone_eq_false_iff.2 hsome, Bool.false_or, Bool.and_eq_true,
              beq_iff_eq] at hplace
            exact filler_of_isClosedComment hclosed hplace.1.1 hplace.1.2
          | false => exact filler_of_blank hspace
        · cases kept with
          | true => exact (append_of_chunk? hchunk).2
          | false => exact hne
        · intro htouchy
          cases last with
          | none => cases htouchy
          | some chunk => simp [htouchy] at hplace
      | lexeme lexeme hapart =>
        rw [isClear_chunk, Bool.and_eq_true, Bool.and_eq_true, flatMap_text_chunks] at hclear
        obtain ⟨⟨hplain, hdash⟩, hclear⟩ := hclear
        rw [Lexeme.text_chunk] at hends
        have hrest : Apart lexeme.text rest := hapart fun hcode hhead => by
          simp [hcode, hhead] at hdash
        obtain ⟨lead, entries, hreading⟩ := ih rest.length hshort (hends.lexeme hrest) hclear rfl
        exact ⟨_, _, hreading.lexeme hplain (by rwa [flatMap_text_chunks])⟩
      | @unclosed mark t hquote hopen =>
        have hmark := foldl_markAfter_unclosed hquote hopen front
        rw [Chunk.text, append_nil, Ends, hmark] at hends
        cases hends

open BigQuery

/-- The texts with and without clear comments are one row in small letters. -/
theorem exists_lowerCase {sql : Text} {run : List Token} (hstrict : tokenize sql = .ok run)
    (hclear : isClear none (chunks sql)) :
    ∃ (lead : Bool → Text) (row : Row Bool), (∀ kept, Heading (lead kept)) ∧ Row.Legible row ∧
      Row.weight ['$'] row = 0 ∧ ∀ kept, lowerCase ((chunks sql).flatMap (shown kept)) =
        .ok (lead kept ++ Row.text kept row) := by
  obtain ⟨lead, entries, hreading⟩ := exists_reading (ends_of_tokenize hstrict) hclear
  refine ⟨lead, entries.map cell, hreading.heading, legible_map_cell hreading.beside,
    weight_map_cell entries, fun kept => ?_⟩
  rw [hreading.text kept, Strand.lowerCase_text (hreading.heading kept)
    (legible_strand hreading.beside kept), lowerText_strand]

/-! ## All passes -/

variable {σ : Type}

/-- All passes together give a row, if the text in small letters is one. -/
theorem Row.exists_prepare {lead : σ → Text} (hlead : ∀ s, Heading (lead s)) {row : Row σ}
    (hlegible : Legible row) (hdollar : Unmarked row) {sql : σ → Text}
    (hlower : ∀ s, lowerCase (sql s) = .ok (lead s ++ text s row)) :
    ∃ row', Legible row' ∧ ∀ s, prepare (sql s) = .ok (lead s ++ text s row') := by
  obtain ⟨row₁, hlegible₁, hdollar₁, hwith⟩ := exists_aliasColumns blocks_firstPattern (by decide)
    (by decide) hlead hlegible hdollar
  obtain ⟨row₂, hlegible₂, hdollar₂, hcomma⟩ := exists_aliasColumns blocks_nextPattern (by decide)
    (by decide) hlead hlegible₁ hdollar₁
  obtain ⟨row₃, hlegible₃, hdollar₃, hgroup⟩ := exists_convert (.inl rfl) blocks_groupByPattern
    (by decide)
    (fun _ htakes => exists_lists_grouped (.inl rfl) (blocks_groupByPattern ▸ htakes)) hlead
    hlegible₂ hdollar₂
  obtain ⟨row₄, hlegible₄, hdollar₄, hnested⟩ := exists_convert (.inl rfl)
    blocks_nestedGroupByPattern (by decide)
    (fun _ htakes => exists_lists_grouped (.inr rfl) (blocks_nestedGroupByPattern ▸ htakes)) hlead
    hlegible₃ hdollar₃
  obtain ⟨row₅, hlegible₅, hdollar₅, horder⟩ := exists_convert (.inr rfl) blocks_orderByPattern
    (by decide) (fun _ htakes => exists_lists_ordered (blocks_orderByPattern ▸ htakes)) hlead
    hlegible₄ hdollar₄
  obtain ⟨row₆, hlegible₆, hdollar₆, hconcat⟩ := exists_replaceConcats hlead hlegible₅ hdollar₅
  obtain ⟨row₇, hlegible₇, hunquote⟩ := exists_unquoteNumbers hlead hlegible₆ hdollar₆
  refine ⟨row₇, hlegible₇, fun s => ?_⟩
  have hwith' : aliasColumns firstPattern "with ".toList
    (lead s ++ text s row) = .ok (lead s ++ text s row₁) := hwith s
  have hcomma' : aliasColumns nextPattern ", ".toList
    (lead s ++ text s row₁) = .ok (lead s ++ text s row₂) := hcomma s
  rw [prepare, hlower s, ok_bind, hwith', ok_bind, hcomma', ok_bind, hgroup s, ok_bind, hnested s,
    ok_bind, horder s, ok_bind, hconcat s, ok_bind, hunquote s]

end Layout

namespace BigQuery

/-- A text without open literals and with clear comments is prepared with and without its comments,
and the results have the same tokens. -/
theorem map_text_prepare_blankComments {sql : Text} {run : List Token}
    (hstrict : tokenize sql = .ok run) (hclear : isClear none (chunks sql) = true) :
    ∃ output blanked, prepare sql = .ok output ∧ prepare (blankComments sql) = .ok blanked ∧
      (tokens output).map Token.text = (tokens blanked).map Token.text := by
  obtain ⟨lead, row, hlead, hlegible, hdollar, hlower⟩ :=
    Layout.exists_lowerCase hstrict hclear
  obtain ⟨row', hlegible', hprepare⟩ :=
    Layout.Row.exists_prepare hlead hlegible (.inl hdollar) hlower
  have htexts : ∀ kept, (tokens (lead kept ++ Layout.Row.text kept row')).map Token.text =
      (Layout.Row.keys row').map Prod.fst := by
    intro kept
    rw [← Layout.Row.map_key_tokens_text hlegible' kept (hlead kept), List.map_map]
    rfl
  refine ⟨_, _, ?_, hprepare false, (htexts true).trans (htexts false).symm⟩
  have hkept := hprepare true
  rwa [show (chunks sql).flatMap (Chunk.shown true) = sql from flatMap_text_chunks sql] at hkept

/-- A statement with a line comment in front and block comments that hold a semicolon, a quote and a
comma. -/
def commentedSum : Text :=
  "-- it's\nSELECT a /* ; */ + 'k' AS c FROM t GROUP BY a + /* c', */ 'k';".toList

theorem map_text_prepare_commentedSum :
    tokenize commentedSum = .ok (tokens commentedSum) ∧
    isClear none (chunks commentedSum) = true ∧
    ∃ output blanked, prepare commentedSum = .ok output ∧
      prepare (blankComments commentedSum) = .ok blanked ∧
      (tokens output).map Token.text = (tokens blanked).map Token.text := by
  have hstrict := tokenize_of_foldl (t := commentedSum) (by decide +kernel)
  have hclear : isClear none (chunks commentedSum) = true := by decide +kernel
  exact ⟨hstrict, hclear, map_text_prepare_blankComments hstrict hclear⟩

/-- A line comment at the end of an element of a select list takes the element with it. -/
theorem prepare_lineComment :
    (tokenize "select a --x\n from t;".toList).toOption =
      some (tokens "select a --x\n from t;".toList) ∧
    (prepare "select a --x\n from t;".toList).toOption = some "select  from t;".toList ∧
    (prepare (blankComments "select a --x\n from t;".toList)).toOption =
      some "select a from t;".toList ∧
    (tokens "select  from t;".toList).map Token.text ≠
      (tokens "select a from t;".toList).map Token.text := by
  refine ⟨?_, ?_, ?_, ?_⟩ <;> decide +kernel

end BigQuery

end SqlScript
