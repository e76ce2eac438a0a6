import Mathlib.Data.List.Chain
import SqlScript.Proofs.LiteralRule
import SqlScript.Proofs.Search

/-!
# Quoted literals under a rule

The quoted literals of a script are read off its tokens (`quotedLiterals`), and a rule changes the
tokens of the whole script when it replaces a match: words grow together, and all that stands behind
the match moves. In a script in which nothing starts a comment they can as well be read character by
character (`quotedLiterals_eq_map`), and there a replacement is seen to change nothing
(`quotedParts_replace`). It is made outside of literals, which is what the flag of the first token
of a match says (`InPart.inQuotes_eq`), and neither what is taken out nor what is put in has a quote
mark.

That nothing starts a comment afterwards either rests on what is put in not being empty, since two
dashes may come together otherwise (`applyRules_drops_literal`). With that, what a pass keeps is
kept by all passes (`CompiledRule.Passes.quotedLiterals_eq`).
-/

namespace SqlScript

open List Text

variable {c : Char} {a after before new old sql : Text}

/-! ## The quoted literals of a script -/

/-- The quoted literals among the tokens, each with its mark and the text between its marks, when
the token `opening` has opened one before. -/
def quotedFrom (sql : Text) : Option Token → List Token → List (Text × Option Text)
  | _, [] => []
  | none, token :: later => quotedFrom sql (if token.isQuote then some token else none) later
  | some opening, token :: later =>
    if token.text = opening.text then
      (opening.text, sql.slice? opening.stop token.start) :: quotedFrom sql none later
    else quotedFrom sql (some opening) later

/-- The quoted literals of a script, in order. -/
def quotedLiterals (sql : Text) : List (Text × Option Text) :=
  quotedFrom sql none (tokens sql)

/-! ## Literals read character by character -/

/-- The literal that is open after a character: its mark, and its text so far. -/
def partAfter (part : Option (Char × Text)) (c : Char) : Option (Char × Text) :=
  match part with
  | none => if isQuoteMark c then some (c, []) else none
  | some (mark, body) => if c = mark then none else some (mark, body ++ [c])

/-- The literals that are closed in the text, when `part` has been read of one before. -/
def quotedParts (part : Option (Char × Text)) : Text → List (Char × Text)
  | [] => []
  | c :: t => (part.filter (·.1 = c)).toList ++ quotedParts (partAfter part c) t

theorem quotedParts_append (part : Option (Char × Text)) (a t : Text) :
    quotedParts part (a ++ t) = quotedParts part a ++ quotedParts (a.foldl partAfter part) t := by
  induction a generalizing part with
  | nil => rfl
  | cons c a ih =>
    rw [cons_append, quotedParts, quotedParts, ih, append_assoc, foldl_cons]

/-- A text without quote marks. -/
def Unquoted (t : Text) : Prop :=
  ∀ c ∈ t, isQuoteMark c = false

/-- Outside of a literal nothing opens one. -/
theorem Unquoted.parts_none (h : Unquoted a) :
    quotedParts none a = [] ∧ a.foldl partAfter none = none := by
  induction a with
  | nil => exact ⟨rfl, rfl⟩
  | cons c a ih =>
    obtain ⟨hc, ha⟩ := forall_mem_cons.1 h
    have hafter : partAfter none c = none := by simp [partAfter, hc]
    rw [quotedParts, foldl_cons, hafter]
    exact ih ha

/-- Inside of a literal, all but its mark is text of it. -/
theorem parts_some {mark : Char} (h : mark ∉ a) (body : Text) :
    quotedParts (some (mark, body)) a = [] ∧
      a.foldl partAfter (some (mark, body)) = some (mark, body ++ a) := by
  induction a generalizing body with
  | nil => exact ⟨rfl, by simp⟩
  | cons c a ih =>
    obtain ⟨hc, ha⟩ := not_or.1 (mt mem_cons.2 h)
    have hafter : partAfter (some (mark, body)) c = some (mark, body ++ [c]) := by
      simp [partAfter, Ne.symm hc]
    obtain ⟨hparts, hfold⟩ := ih ha (body ++ [c])
    rw [quotedParts, foldl_cons, hafter, hparts, hfold]
    simp [hc]

/-! ## The scanner reads the same literals -/

/-- A literal that was read character by character, as one that was read off the tokens. -/
def asQuoted (literal : Char × Text) : Text × Option Text :=
  ([literal.1], some literal.2)

/-- The scanner, a reader of its tokens and a reader of characters are in the same literal, or in
none, after the text `front`. -/
inductive InPart (front : Text) :
    Option OpenQuote → Option Token → Option (Char × Text) → Prop where
  | outside : InPart front none none none
  | inside {mark : Char} {offset : Nat} {opening : Token} {before body : Text} :
    isQuoteMark mark = true → opening.text = [mark] → front = before ++ body →
    opening.stop = before.byteSize →
    InPart front (some ⟨mark, offset⟩) (some opening) (some (mark, body))

section Reading

variable {front t rest : Text} {quote : Option OpenQuote} {opening : Option Token}
  {part : Option (Char × Text)} {piece : Piece}

theorem InPart.isSome (h : InPart front quote opening part) : part.isSome = quote.isSome := by
  cases h <;> rfl

/-- A text without quote marks goes on with the literal. -/
theorem InPart.append (h : InPart front quote opening part) (ha : Unquoted a) :
    quotedParts part a = [] ∧ InPart (front ++ a) quote opening (a.foldl partAfter part) := by
  cases h with
  | outside =>
    rw [ha.parts_none.2]
    exact ⟨ha.parts_none.1, .outside⟩
  | @inside mark _ _ before body hmark htext hfront hstop =>
    have hmem : mark ∉ a := fun hmem => by simp [ha mark hmem] at hmark
    rw [(parts_some hmem body).2]
    refine ⟨(parts_some hmem body).1, .inside hmark htext ?_ hstop⟩
    rw [hfront, append_assoc]

theorem unquoted_of_isWordChar {run : Text} (h : ∀ c ∈ run, isWordChar c) : Unquoted run := by
  intro c hc
  by_contra hmark
  rw [Bool.not_eq_false] at hmark
  simpa [isWordChar_of_isQuoteMark hmark] using h c hc

theorem unquoted_singleton (h : isQuoteMark c = false) : Unquoted [c] := by
  intro d hd
  rwa [mem_singleton.1 hd]

/-- A token without quote marks is passed over. -/
theorem InPart.quotedFrom_cons {token : Token} (h : InPart front quote opening part)
    (htoken : Unquoted token.text) (later : List Token) :
    quotedFrom sql opening (token :: later) = quotedFrom sql opening later := by
  have hne : ∀ mark, isQuoteMark mark → token.text ≠ [mark] := by
    intro mark hmark htext
    simp [htoken mark (by simp [htext])] at hmark
  cases h with
  | outside =>
    have hquote : token.isQuote = false := by
      simp [Token.isQuote, hne '\'' (by decide), hne '"' (by decide)]
    simp [quotedFrom, hquote]
  | inside hmark htext => rw [quotedFrom, if_neg (htext ▸ hne _ hmark)]

/-- A symbol of a literal that is not its mark. -/
theorem quoteAfter_of_ne {mark : Char} (hne : c ≠ mark) (offset place : Nat) :
    Token.quoteAfter (some ⟨mark, offset⟩) place c = some ⟨mark, offset⟩ := by
  simp [Token.quoteAfter, hne]

/-- What is made of a quote mark: it opens a literal, closes the one that is open, or is text of
it. -/
theorem InPart.mark (h : InPart front quote opening part)
    (hc : Text.isQuoteMark c) (t : Text) : ∃ opening',
      InPart (front ++ [c]) (Token.quoteAfter quote front.byteSize c) opening' (partAfter part c) ∧
      ∀ later, quotedFrom (front ++ t) opening
          (⟨front.byteSize, front.byteSize + c.utf8Size, [c], quote.isSome⟩ :: later) =
        (quotedParts part [c]).map asQuoted ++ quotedFrom (front ++ t) opening' later := by
  cases h with
  | outside =>
    refine ⟨some ⟨front.byteSize, front.byteSize + c.utf8Size, [c], false⟩, ?_, fun later => ?_⟩
    · have hpart : partAfter none c = some (c, []) := by simp [partAfter, hc]
      have hquote : Token.quoteAfter none front.byteSize c = some ⟨c, front.byteSize⟩ := by
        simp [Token.quoteAfter, hc]
      rw [hpart, hquote]
      refine .inside hc rfl (append_nil _).symm ?_
      rw [Text.byteSize_append]
      rfl
    · have hquote : (Token.mk front.byteSize (front.byteSize + c.utf8Size) [c] false).isQuote =
          true := by simpa [Token.isQuote, Text.isQuoteMark] using hc
      simp [quotedFrom, quotedParts, hquote]
  | @inside mark offset opening before body hmark htext hfront hstop =>
    by_cases hclose : c = mark
    · subst hclose
      refine ⟨none, ?_, fun later => ?_⟩
      · have hpart : partAfter (some (c, body)) c = none := by simp [partAfter]
        have hquote : Token.quoteAfter (some ⟨c, offset⟩) front.byteSize c = none := by
          simp [Token.quoteAfter]
        rw [hpart, hquote]
        exact .outside
      · have hslice : (front ++ t).slice? opening.stop front.byteSize = some body := by
          rw [hfront, hstop, append_assoc, Text.byteSize_append]
          exact Text.slice?_append before body t
        rw [quotedFrom, if_pos htext.symm, hslice, htext]
        simp [quotedParts, Option.filter, asQuoted]
    · refine ⟨some opening, ?_, fun later => ?_⟩
      · have hpart : partAfter (some (mark, body)) c = some (mark, body ++ [c]) := by
          simp [partAfter, hclose]
        rw [hpart, quoteAfter_of_ne hclose]
        refine .inside hmark htext ?_ hstop
        rw [hfront, append_assoc]
      · have hne : [c] ≠ opening.text := by simpa [htext] using hclose
        rw [quotedFrom, if_neg hne]
        simp [quotedParts, Ne.symm hclose]

/-- What is made of a piece of a text without comments. -/
theorem InPart.step (h : InPart front quote opening part) (hfree : CommentFree t)
    (hpiece : piece? quote.isSome t = some (piece, rest)) : ∃ opening',
      InPart (front ++ piece.text) (piece.quoteAfter front.byteSize quote) opening'
        (piece.text.foldl partAfter part) ∧
      ∀ later, quotedFrom (front ++ t) opening (piece.tokens front.byteSize quote ++ later) =
        (quotedParts part piece.text).map asQuoted ++ quotedFrom (front ++ t) opening' later := by
  cases piece with
  | word run =>
    obtain ⟨-, -, hrun, -⟩ := piece?_eq_word_iff.1 hpiece
    have hunquoted := unquoted_of_isWordChar hrun
    obtain ⟨hparts, hnext⟩ := h.append hunquoted
    refine ⟨opening, hnext, fun later => ?_⟩
    rw [Piece.text, hparts]
    exact h.quotedFrom_cons hunquoted later
  | symbol c =>
    cases hc : Text.isQuoteMark c with
    | true => exact h.mark hc t
    | false =>
      have hunquoted := unquoted_singleton hc
      obtain ⟨hparts, hnext⟩ := h.append hunquoted
      have hquote : Token.quoteAfter quote front.byteSize c = quote := by
        cases h with
        | outside => simp [Token.quoteAfter, hc]
        | inside hmark =>
          refine quoteAfter_of_ne ?_ _ _
          rintro rfl
          rw [hmark] at hc
          cases hc
      refine ⟨opening, ?_, fun later => ?_⟩
      · rw [Piece.quoteAfter, hquote]
        exact hnext
      · rw [Piece.text, hparts]
        exact h.quotedFrom_cons hunquoted later
  | blank c =>
    obtain ⟨-, hblank⟩ := piece?_eq_blank_iff.1 hpiece
    have hc : Text.isQuoteMark c = false := by
      by_contra hmark
      rw [Bool.not_eq_false] at hmark
      simp [isBlank_of_isQuoteMark hmark] at hblank
    obtain ⟨hparts, hnext⟩ := h.append (unquoted_singleton hc)
    refine ⟨opening, hnext, fun later => ?_⟩
    rw [Piece.text, hparts]
    rfl
  | comment body =>
    have hcomment := (piece?_eq_comment_iff.1 hpiece).2
    rw [hfree.splitComment?_eq_none] at hcomment
    cases hcomment

/-- The literals of a text without comments, by its tokens and by its characters. -/
theorem InPart.quotedFrom_scanFrom (h : InPart front quote opening part)
    (hfree : CommentFree t) :
    quotedFrom (front ++ t) opening (Token.scanFrom front.byteSize quote t).tokens =
      (quotedParts part t).map asQuoted := by
  induction quote, t using Token.piece_induction generalizing front opening part with
  | nil quote =>
    rw [Token.tokens_scanFrom_nil]
    cases opening <;> rfl
  | piece quote piece rest hpiece ih =>
    obtain ⟨opening', hnext, hliterals⟩ := h.step hfree hpiece
    have hrest := ih _ hnext hfree.of_append
    rw [Token.tokens_scanFrom _ _ hpiece, hliterals, quotedParts_append, map_append,
      ← Text.byteSize_append, ← hrest, append_assoc]

/-- A token is flagged just if a literal is open before it. -/
theorem InPart.inQuotes_eq {token : Token}
    (h : InPart front quote opening part) (hfree : CommentFree (before ++ old))
    (hmem : token ∈ (Token.scanFrom front.byteSize quote (before ++ old)).tokens)
    (hstart : token.start = (front ++ before).byteSize) :
    token.inQuotes = (before.foldl partAfter part).isSome := by
  generalize htext : before ++ old = t at hfree hmem
  induction quote, t using Token.piece_induction generalizing before front opening part with
  | nil quote => simp [Token.tokens_scanFrom_nil] at hmem
  | piece quote piece rest hpiece ih =>
    by_cases hne : before = []
    · subst hne
      rw [append_nil] at hstart
      obtain ⟨first, -, -, hfirst⟩ := Token.exists_piece_at hmem hstart
      rw [foldl_nil, h.isSome, Token.eq_of_mem_piece hfirst]
    · rw [← htext] at hmem
      obtain ⟨first, before, rfl, hfirst, hlater⟩ := Token.exists_piece_before hne hmem hstart
      rw [htext, hpiece] at hfirst
      cases hfirst
      obtain ⟨opening', hnext, -⟩ := h.step hfree hpiece
      rw [foldl_append]
      exact ih _ hnext (by rw [hstart, append_assoc]) rfl hfree.of_append hlater

end Reading

/-! ## Texts without comments -/

/-- The text holds nothing that starts a comment. -/
structure Uncommented (t : Text) : Prop where
  line : ¬ "--".toList <:+: t
  block : ¬ "/*".toList <:+: t

/-- The text holds no quote mark and no character of what starts a comment. -/
def Quiet (t : Text) : Prop :=
  ∀ c ∈ t, c ∉ ['\'', '"', '-', '/', '*']

instance decidableQuiet (t : Text) : Decidable (Quiet t) :=
  List.decidableBAll (fun c => c ∉ ['\'', '"', '-', '/', '*']) t

theorem Quiet.unquoted {t : Text} (h : Quiet t) : Unquoted t := by
  intro c hc
  have hnone := h c hc
  simp only [mem_cons, not_or] at hnone
  simp [isQuoteMark, hnone]

theorem Quiet.notMem {t : Text} (h : Quiet t) {c : Char} (hc : c ∈ ['\'', '"', '-', '/', '*']) :
    c ∉ t :=
  fun hmem => h c hmem hc

theorem Uncommented.commentFree {t : Text} (h : Uncommented t) : CommentFree t := by
  rintro before body rest rfl hcomment
  have hline : ∀ s, "--".toList <:+: before ++ ('-' :: '-' :: s) := fun s =>
    ⟨before, s, by simp⟩
  have hblock : ∀ s, "/*".toList <:+: before ++ ('/' :: '*' :: s) := fun s =>
    ⟨before, s, by simp⟩
  cases hcomment
  · exact h.line (hline _)
  · exact h.line (hline _)
  · exact h.block (hblock _)
  · exact h.block (hblock _)

/-- Two characters stand nowhere side by side. -/
theorem not_infix_pair_iff {a b : Char} {t : Text} :
    ¬ [a, b] <:+: t ↔ t.IsChain fun x y => ¬ (x = a ∧ y = b) := by
  constructor
  · intro h
    induction t with
    | nil => exact .nil
    | cons c t ih =>
      have hrest := ih fun hpair => h (hpair.trans (suffix_cons c t).isInfix)
      cases t with
      | nil => exact .singleton c
      | cons d t =>
        refine isChain_cons_cons.2 ⟨?_, hrest⟩
        rintro ⟨rfl, rfl⟩
        exact h ⟨[], t, rfl⟩
  · intro h hpair
    have hchain := List.IsChain.infix h hpair
    exact (isChain_cons_cons.1 hchain).1 ⟨rfl, rfl⟩

/-- What is put in between keeps two characters apart, if it has neither of them. -/
theorem not_infix_pair_of_replace {a b : Char}
    (h : ¬ [a, b] <:+: before ++ (old ++ after)) (hne : new ≠ []) (ha : a ∉ new) (hb : b ∉ new) :
    ¬ [a, b] <:+: before ++ (new ++ after) := by
  have hnew : ¬ [a, b] <:+: new := fun hpair => ha (hpair.subset mem_cons_self)
  rw [not_infix_pair_iff] at h hnew ⊢
  simp only [isChain_append] at h ⊢
  refine ⟨h.1, ⟨hnew, h.2.1.2.1, fun x hx y _ => ?_⟩, fun x _ y hy => ?_⟩
  · rintro ⟨rfl, -⟩
    exact ha (mem_of_getLast? hx)
  · rintro ⟨-, rfl⟩
    rw [head?_append_of_ne_nil _ hne] at hy
    exact hb (mem_of_head? hy)

theorem Uncommented.replace
    (h : Uncommented (before ++ (old ++ after))) (hquiet : Quiet new) (hne : new ≠ []) :
    Uncommented (before ++ (new ++ after)) where
  line := not_infix_pair_of_replace h.line hne (hquiet.notMem (by decide))
    (hquiet.notMem (by decide))
  block := not_infix_pair_of_replace h.block hne (hquiet.notMem (by decide))
    (hquiet.notMem (by decide))

/-! ## A replacement keeps the literals -/

theorem quotedLiterals_eq_map (h : CommentFree sql) :
    quotedLiterals sql = (quotedParts none sql).map asQuoted := by
  have houtside : InPart [] none none none := .outside
  exact houtside.quotedFrom_scanFrom h

/-- Outside of literals, a text without quote marks can make way for another one. -/
theorem quotedParts_replace (hbefore : before.foldl partAfter none = none)
    (hold : Unquoted old) (hnew : Unquoted new) (after : Text) :
    quotedParts none (before ++ (new ++ after)) = quotedParts none (before ++ (old ++ after)) := by
  simp only [quotedParts_append, hbefore, hold.parts_none, hnew.parts_none]

namespace Search

/-- The blocks are literals that are no quote marks. -/
def PlainLiterals (blocks : List PatternBlock) : Prop :=
  ∀ block ∈ blocks, block.Plain ∧ block.isPlaceholder = false

/-- Such blocks take no quote mark. -/
theorem Committed.isQuote_eq_false {blocks : List PatternBlock} {run : List Token}
    {segments : List (List Token)} {captures : List (Text × Text)}
    (h : Committed sql blocks run segments captures) (hblocks : PlainLiterals blocks) :
    ∀ token ∈ segments.flatten, token.isQuote = false := by
  induction h with
  | done => simp
  | literal his _ ih =>
    obtain ⟨hblock, hblocks⟩ := forall_mem_cons.1 hblocks
    exact forall_mem_cons.2 ⟨isQuote_eq_false_of_is hblock.1 his, ih hblocks⟩
  | capture => cases (hblocks _ mem_cons_self).2

theorem PlainLiterals.exists_map {blocks : List PatternBlock} (h : PlainLiterals blocks) :
    ∃ literals : List Text, blocks = literals.map .literal := by
  induction blocks with
  | nil => exact ⟨[], rfl⟩
  | cons block blocks ih =>
    obtain ⟨hblock, hblocks⟩ := forall_mem_cons.1 h
    obtain ⟨literals, rfl⟩ := ih hblocks
    cases block with
    | literal text => exact ⟨text :: literals, rfl⟩
    | placeholder => cases hblock.2

/-- What a match of literals takes has no quote marks, since a mark would be one of its tokens. -/
theorem Reports.unquoted {found : PatternMatch}
    {segments : List (List Token)} {captures : List (Text × Text)}
    (h : Reports (before ++ (old ++ after)) found segments captures)
    (hfree : CommentFree (before ++ (old ++ after))) (hstart : before.byteSize = found.start)
    (hstop : (before ++ old).byteSize = found.stop)
    (hquotes : ∀ token ∈ segments.flatten, token.isQuote = false) : Unquoted old := by
  intro c hc
  by_contra hmark
  rw [Bool.not_eq_false] at hmark
  obtain ⟨p, q, rfl⟩ := append_of_mem hc
  have hwhole : Token.Whole (before ++ p) [c] (q ++ after) :=
    .symbol c rfl (isWordChar_of_isQuoteMark hmark) (isBlank_of_isQuoteMark hmark)
  obtain ⟨token, hmem, htext, hplace⟩ :=
    Token.exists_mem_scanFrom _ [] none hfree (by simp) hwhole
  have hsize := add_byteSize_of_slice? ((laid_tokens _).slice token hmem)
  have htaken : token ∈ segments.flatten := by
    rw [← h.tokens, mem_filter]
    refine ⟨hmem, ?_⟩
    simp only [nil_append, byteSize_append, byteSize_cons, byteSize_nil,
      htext] at hplace hsize hstop
    simp only [Bool.and_eq_true, decide_eq_true_eq]
    omega
  have hquote := hquotes token htaken
  simp [Token.isQuote, htext] at hquote
  simp [isQuoteMark, hquote] at hmark

end Search

namespace CompiledRule

variable {rule : CompiledRule} {state next : Progress} {found : PatternMatch}

/-- A pass of a rule that has only literals keeps the literals of the script. -/
theorem Replaces.quotedLiterals_eq (h : rule.Replaces state found next)
    (hblocks : Search.PlainLiterals rule.pattern.blocks) (hquiet : Quiet rule.replacement)
    (hne : rule.replacement ≠ []) (hfree : Uncommented state.sql) :
    quotedLiterals next.sql = quotedLiterals state.sql ∧ Uncommented next.sql := by
  obtain ⟨result, hresult, hlocated⟩ := Search.exists_firstFrom
    (fun block hmem => (hblocks block hmem).1) _ (rfl : (tokens state.sql).drop state.first = _)
  cases h.search.symm.trans hresult
  cases hlocated with
  | @found segments captures _ _ _ hstarts hreports =>
    obtain ⟨text, later, hlater⟩ := hstarts.literal
    have hliterals : rule.HasLiterals text := by
      rw [hlater] at hblocks
      obtain ⟨literals, rfl⟩ :=
        Search.PlainLiterals.exists_map (forall_mem_cons.1 hblocks).2
      exact ⟨literals, hlater⟩
    obtain ⟨before, old, after, hsql, hstart, hstop, rfl⟩ := hliterals.exists_parts h
    rw [hsql] at hstarts hreports hfree ⊢
    have hold := hreports.unquoted hfree.commentFree hstart hstop
      (hstarts.committed.isQuote_eq_false hblocks)
    have hbefore : before.foldl partAfter none = none := by
      obtain ⟨token, hhead, houtside⟩ := hstarts.outside
      rw [head?_drop] at hhead
      have hplace := hreports.start
      rw [hhead, Option.map_some, Option.some.injEq, ← hstart] at hplace
      have hin : InPart [] none none none := .outside
      have hflag := hin.inQuotes_eq hfree.commentFree (mem_of_getElem? hhead) hplace
      rw [houtside] at hflag
      simpa using hflag.symm
    have hnext := hfree.replace hquiet hne
    refine ⟨?_, hnext⟩
    rw [quotedLiterals_eq_map hnext.commentFree, quotedLiterals_eq_map hfree.commentFree,
      quotedParts_replace hbefore hold hquiet.unquoted]

/-- All passes together keep the literals. -/
theorem Passes.quotedLiterals_eq {stages : List Stage} (h : rule.Passes state stages)
    (hblocks : Search.PlainLiterals rule.pattern.blocks) (hquiet : Quiet rule.replacement)
    (hne : rule.replacement ≠ []) (hfree : Uncommented state.sql) :
    quotedLiterals (lastState state stages).sql = quotedLiterals state.sql := by
  induction h with
  | nil => rfl
  | cons hreplaces _ ih =>
    obtain ⟨hliterals, hnext⟩ := hreplaces.quotedLiterals_eq hblocks hquiet hne hfree
    exact (ih hnext).trans hliterals

end CompiledRule

/-! ## References to the session -/

theorem mem_of_mem_replaceAll {t : Text} (h : c ∈ t.replaceAll old new) : c ∈ t ∨ c ∈ new := by
  fun_induction replaceAll t old new with
  | case1 => exact .inl h
  | case2 d t rest hstrip _ ih =>
    rcases mem_append.1 h with hmem | hmem
    · exact .inr hmem
    · refine (ih hmem).imp_left fun hrest => ?_
      rw [← append_of_strip? hstrip]
      exact mem_append_right _ hrest
  | case3 d t rest _ _ ih =>
    rcases mem_cons.1 h with rfl | hmem
    · exact .inl mem_cons_self
    · exact (ih hmem).imp_left (mem_cons_of_mem _)
  | case4 d t _ ih =>
    rcases mem_cons.1 h with rfl | hmem
    · exact .inl mem_cons_self
    · exact (ih hmem).imp_left (mem_cons_of_mem _)

theorem quiet_of_isAlphanumeric {t : Text} (h : ∀ c ∈ t, isAlphanumeric c) : Quiet t := by
  intro c hc hmem
  have hfalse : isAlphanumeric c = false := by
    simp only [mem_cons, not_mem_nil, or_false] at hmem
    rcases hmem with rfl | rfl | rfl | rfl | rfl <;> decide +kernel
  rw [h c hc] at hfalse
  cases hfalse

theorem Quiet.replaceAll {t : Text} (h : Quiet t) (old : Text) (hnew : Quiet new) :
    Quiet (t.replaceAll old new) := by
  intro c hc
  rcases mem_of_mem_replaceAll hc with hmem | hmem
  · exact h c hmem
  · exact hnew c hmem

theorem quiet_of_validate {id : Text} (h : SessionId.validate id = .ok ()) : Quiet id := by
  unfold SessionId.validate at h
  split at h
  · cases h
  · split at h
    · cases h
    · split at h
      · cases h
      · rename_i hall
        exact quiet_of_isAlphanumeric (by simpa using hall)

theorem SessionId.pick_mem {alphabet : Text} (h : 0 < alphabet.length) (byte : UInt8) :
    pick alphabet byte ∈ alphabet := by
  have hlt := Nat.mod_lt byte.toNat h
  rw [pick, getD_eq_getElem?_getD, getElem?_eq_getElem hlt]
  exact getElem_mem hlt

/-- What random bytes pick is a session id. -/
theorem SessionId.validate_ofBytes {bytes : List UInt8} (h : size ≤ bytes.length) :
    validate (ofBytes bytes) = .ok () := by
  cases bytes with
  | nil => exact absurd h (by decide)
  | cons byte bytes =>
    have hletters : ∀ c ∈ letters, isLetter c := all_eq_true.1 (by decide +kernel)
    have hchars : ∀ c ∈ alphanumerics, isAlphanumeric c := all_eq_true.1 (by decide +kernel)
    have hfirst : pick letters byte ∈ letters := pick_mem (by decide) byte
    have hall : ∀ c ∈ ofBytes (byte :: bytes), isAlphanumeric c := by
      refine forall_mem_cons.2 ⟨hchars _ (mem_append_left _ hfirst), forall_mem_map.2 ?_⟩
      exact fun other _ => hchars _ (pick_mem (by decide) other)
    have hlength : (ofBytes (byte :: bytes)).length = size := by
      simp only [ofBytes, size, length_cons, length_map, length_take] at h ⊢
      omega
    rw [validate, hlength, all_eq_true.2 hall, ofBytes, head?_cons, Option.any_some,
      hletters _ hfirst]
    rfl

/-- A session id brings in none of these characters, so only the schema may. -/
theorem Session.quiet_fill {session : Session} {values : SessionValues} {replacement : Text}
    (h : session.values = .ok values) (hid : SessionId.validate session.programId = .ok ())
    (hschema : ∀ schema ∈ session.tempSchema, Quiet schema) (hquiet : Quiet replacement) :
    Quiet (values.fill replacement) := by
  have hempty : Quiet [] := by simp [Quiet]
  have hdot : ∀ schema, Quiet schema → Quiet (schema ++ ['.']) := fun schema hschema =>
    forall_mem_append.2 ⟨hschema, by simp⟩
  have hvalues : Quiet values.sessionId ∧ Quiet values.tempPrefix := by
    rcases session with ⟨- | id, - | schema, programId⟩
    · cases h
      exact ⟨quiet_of_validate hid, hempty⟩
    · cases h
      exact ⟨quiet_of_validate hid, hdot schema (hschema schema rfl)⟩
    · obtain ⟨_, hvalid, h⟩ := exists_of_bind_eq_ok h
      cases h
      exact ⟨quiet_of_validate hvalid, hempty⟩
    · obtain ⟨_, hvalid, h⟩ := exists_of_bind_eq_ok h
      cases h
      exact ⟨quiet_of_validate hvalid, hdot schema (hschema schema rfl)⟩
  unfold SessionValues.fill
  exact (hquiet.replaceAll _ hvalues.1).replaceAll _ hvalues.2

/-- A rule whose pattern has only literals, none of them a quote mark, keeps the quoted literals of
every script that holds neither `--` nor `/*`, if its replacement is not empty and has no quote
mark, `-`, `/` or `*` once its references to the session are filled in. -/
theorem applyRules_keeps_quotedLiterals (session : Session) (values : SessionValues) (rule : Rule)
    (pattern : Pattern) (sql out : Text) (hpattern : Pattern.compile rule.search = .ok pattern)
    (hblocks : Search.PlainLiterals pattern.blocks) (hvalues : session.values = .ok values)
    (hquiet : Quiet (values.fill rule.replace)) (hne : values.fill rule.replace ≠ [])
    (hline : ¬ "--".toList <:+: sql) (hblock : ¬ "/*".toList <:+: sql)
    (hout : applyRules session [rule] sql = .ok out) : quotedLiterals out = quotedLiterals sql := by
  have hrule : CompiledRule.ofRule values rule = .ok ⟨pattern, values.fill rule.replace⟩ := by
    rw [CompiledRule.ofRule, hpattern, ok_bind]
    rfl
  have happly : CompiledRule.apply ⟨pattern, values.fill rule.replace⟩ sql = .ok out := by
    rw [applyRules, hvalues, ok_bind, List.foldlM_cons, hrule, ok_bind] at hout
    obtain ⟨out', happly, hdone⟩ := exists_of_bind_eq_ok hout
    rwa [Except.ok.inj hdone] at happly
  obtain ⟨stages, hpasses, rfl, -⟩ := CompiledRule.exists_passes_of_apply happly
  exact hpasses.quotedLiterals_eq hblocks hquiet hne ⟨hline, hblock⟩

/-- A session of which nothing is told. -/
def plainSession : Session where
  programId := "abcdefgh".toList

/-- The current date, by a rule that names the session. -/
def sessionDate : Rule where
  search := "getdate()".toList
  replace := "%session_id%.today".toList

/-- A call, and literals in which a call and a mark of the other kind stand. -/
def quotedDates : Text :=
  "SELECT GETDATE(), 'GETDATE()', \"it's -\"".toList

theorem applyRules_keeps_quoted_dates :
    (applyRules plainSession [sessionDate] quotedDates).toOption =
      some "SELECT abcdefgh.today, 'GETDATE()', \"it's -\"".toList ∧
    quotedLiterals quotedDates =
      [(['\''], some "GETDATE()".toList), (['"'], some "it's -".toList)] ∧
    quotedLiterals "SELECT abcdefgh.today, 'GETDATE()', \"it's -\"".toList =
      quotedLiterals quotedDates := by
  have hout : (applyRules plainSession [sessionDate] quotedDates).toOption =
      some "SELECT abcdefgh.today, 'GETDATE()', \"it's -\"".toList := by decide +kernel
  have hpattern : (Pattern.compile sessionDate.search).toOption =
      some ⟨"getdate()".toList, [.literal "getdate".toList, .literal "(".toList,
        .literal ")".toList]⟩ := by decide +kernel
  have hid : plainSession.programId = SessionId.ofBytes [0, 1, 2, 3, 4, 5, 6, 7] := by
    decide +kernel
  have hvalues : plainSession.values = .ok ⟨"abcdefgh".toList, []⟩ := rfl
  refine ⟨hout, by decide +kernel, ?_⟩
  refine applyRules_keeps_quotedLiterals plainSession _ sessionDate _ quotedDates _
    (eq_ok_of_toOption hpattern) ?_ hvalues ?_ ?_ ?_ ?_ (eq_ok_of_toOption hout)
  · unfold Search.PlainLiterals
    decide
  · refine Session.quiet_fill hvalues ?_ (fun schema hschema => ?_) (by decide +kernel)
    · rw [hid]
      exact SessionId.validate_ofBytes (by decide)
    · cases hschema
  · decide +kernel
  · decide +kernel
  · decide +kernel

/-- A rule whose replacement comes out empty where no schema is given. -/
def prefixed : Rule where
  search := "x".toList
  replace := "%temp_prefix%".toList

/-- A replacement that comes out empty may let two dashes come together, and the literal after them
is lost in a comment. -/
theorem applyRules_drops_literal :
    (Pattern.compile prefixed.search).toOption = some ⟨"x".toList, [.literal "x".toList]⟩ ∧
    prefixed.replace ≠ [] ∧ Quiet prefixed.replace ∧
    ¬ "--".toList <:+: "-x-'a'".toList ∧ ¬ "/*".toList <:+: "-x-'a'".toList ∧
    (applyRules plainSession [prefixed] "-x-'a'".toList).toOption = some "--'a'".toList ∧
    quotedLiterals "-x-'a'".toList = [(['\''], some ['a'])] ∧
    quotedLiterals "--'a'".toList = [] := by
  refine ⟨?_, ?_, ?_, ?_, ?_, ?_, ?_, ?_⟩
  all_goals decide +kernel

end SqlScript
