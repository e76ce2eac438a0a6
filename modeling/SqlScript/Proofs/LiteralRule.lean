import SqlScript.Proofs.Passes
import SqlScript.Proofs.Stretch

/-!
# Rules without variables

A rule looks again at what it has put in, and the text may grow with each pass. A rule whose pattern
has only literals comes to an end nevertheless, if no comment can be read in its replacement, and no
token of it but the first is the first literal of the pattern (`CompiledRule.literals_end`).

What gets smaller is the part of the text after the last match, which no pass has touched. A match
that is found later ends in that part (`LiteralRule.lt_stop`). For if it ended in what was put in,
it would start with a token of the replacement (`exists_mem_tokens_within`), and only the first one
can be the literal. There the search does not look, since nothing but blanks comes before it
(`countP_head_le`).
-/

namespace SqlScript

open List Text Token

variable {size : Nat} {found : PatternMatch} {next : Progress} {rest : Text}

/-! ## The tokens of a part of a text -/

namespace Token

variable {text after a b : Text}

theorem Whole.ne_nil {before : Text} (h : Whole before text after) : text ≠ [] := by
  cases h with
  | word hne => exact hne
  | symbol c htext => simp [htext]

/-- A token starts with a character that is not blank. -/
theorem Whole.isBlank_head {before : Text} {c : Char}
    (h : Whole before (c :: text) after) : isBlank c = false := by
  cases h with
  | word _ hword =>
    by_contra hblank
    rw [Bool.not_eq_false] at hblank
    simp [isWordChar_of_isBlank hblank] at hword
  | symbol d htext _ hblank =>
    cases htext
    exact hblank

/-- What is whole in a text is whole in a part of it. -/
theorem Whole.within {p q : Text} (h : Whole (p ++ a) text (b ++ q)) : Whole a text b := by
  cases h with
  | word hne hword hbefore hafter =>
    refine .word hne hword ?_ ?_
    · cases hlast : a.getLast? with
      | none => rfl
      | some c => simpa [getLast?_append, hlast] using hbefore
    · cases b with
      | nil => rfl
      | cons c b => exact hafter
  | symbol c htext hword hblank => exact .symbol c htext hword hblank

/-- A word or a symbol that starts a text is read off it, if it does not start a comment. -/
theorem exists_piece_of_whole (h : Whole [] text after)
    (hnone : splitComment? (text ++ after) = none) (inQuotes : Bool) : ∃ piece,
      piece? inQuotes (text ++ after) = some (piece, after) ∧
      ∀ offset quote, piece.tokens offset quote =
        [⟨offset, offset + text.byteSize, text, quote.isSome⟩] := by
  cases h with
  | word hne hword _ hafter =>
    exact ⟨.word text, piece?_eq_word_iff.2 ⟨rfl, hne, hword, hafter⟩, fun _ _ => rfl⟩
  | symbol c htext hword hblank =>
    subst htext
    exact ⟨.symbol c, piece?_eq_symbol_iff.2 ⟨rfl, hword, hblank, .inr hnone⟩, fun _ _ => rfl⟩

/-- A piece of a text without comments does not reach into a token that stands further on. -/
theorem exists_append_of_whole {inQuotes : Bool} {piece : Piece} {t : Text}
    (hpiece : piece? inQuotes t = some (piece, rest)) (hfree : CommentFree t)
    (htext : t = a ++ (text ++ b)) (hwhole : Whole a text b) (hne : a ≠ []) :
    ∃ a', a = piece.text ++ a' := by
  obtain ⟨happend, -⟩ := append_of_piece? hpiece
  have hsplit := append_eq_append_iff.1 (happend.trans htext)
  have hsingle : ∀ c, piece.text = [c] → ∃ a', a = piece.text ++ a' := by
    intro c hc
    obtain ⟨d, a', rfl⟩ := exists_cons_of_ne_nil hne
    rw [htext, hc] at happend
    obtain ⟨rfl, -⟩ := cons.inj happend
    exact ⟨a', by rw [hc]; rfl⟩
  cases piece with
  | word run =>
    obtain ⟨-, -, hrun, -⟩ := piece?_eq_word_iff.1 hpiece
    rcases hsplit with ⟨a', ha, -⟩ | ⟨more, hmore, hrest⟩
    · exact ⟨a', ha⟩
    · cases more with
      | nil => exact ⟨[], by simpa using hmore.symm⟩
      | cons c more =>
        -- the word would go on from `a` into the token
        replace hmore : run = a ++ c :: more := hmore
        subst hmore
        obtain ⟨d, text, rfl⟩ := exists_cons_of_ne_nil hwhole.ne_nil
        obtain ⟨rfl, -⟩ := cons.inj hrest
        cases hwhole with
        | word _ _ hbefore _ =>
          have hlast : isWordChar (a.getLast hne) :=
            hrun _ (mem_append_left _ (getLast_mem hne))
          simp [getLast?_eq_some_getLast hne, hlast] at hbefore
        | symbol e he hword _ =>
          obtain ⟨rfl, -⟩ := cons.inj he
          have hc := hrun d (by simp)
          simp [hword] at hc
  | symbol c => exact hsingle c rfl
  | blank c => exact hsingle c rfl
  | comment body =>
    have hcomment := (piece?_eq_comment_iff.1 hpiece).2
    simp [hfree.splitComment?_eq_none] at hcomment

/-- A word or a symbol of a text without comments is a token of it. -/
theorem exists_mem_scanFrom (t front : Text) (quote : Option OpenQuote) (hfree : CommentFree t)
    (htext : t = a ++ (text ++ b)) (hwhole : Whole a text b) :
    ∃ token ∈ (scanFrom front.byteSize quote t).tokens,
      token.text = text ∧ token.start = (front ++ a).byteSize := by
  induction quote, t using piece_induction generalizing front a with
  | nil quote =>
    obtain ⟨-, htoken⟩ := append_eq_nil_iff.1 htext.symm
    exact absurd (append_eq_nil_iff.1 htoken).1 hwhole.ne_nil
  | piece quote piece rest hpiece ih =>
    by_cases hne : a = []
    · subst hne
      rw [htext] at hfree ⊢
      obtain ⟨piece, hpiece, htokens⟩ :=
        exists_piece_of_whole hwhole hfree.splitComment?_eq_none quote.isSome
      rw [nil_append, tokens_scanFrom _ _ hpiece, htokens]
      exact ⟨_, mem_cons_self, rfl, by simp⟩
    · obtain ⟨a, rfl⟩ := exists_append_of_whole hpiece hfree htext hwhole hne
      rw [append_assoc] at htext
      have hpart : Whole a text b := Whole.within (q := []) (by rwa [append_nil])
      obtain ⟨token, hmem, hsame, hstart⟩ := ih (piece.quoteAfter front.byteSize quote)
        (front ++ piece.text) hfree.of_append (append_cancel_left htext) hpart
      refine ⟨token, ?_, hsame, by rw [hstart, append_assoc]⟩
      rw [tokens_scanFrom _ _ hpiece, ← byteSize_append]
      exact mem_append_right _ hmem

end Token

/-- A gap in which no comment can be read is blank. -/
theorem Gap.blank_of_commentFree {inQuotes : Bool} {gap : Text} (h : Gap inQuotes gap rest)
    (hfree : CommentFree (gap ++ rest)) : gap.Blank := by
  induction h with
  | nil => exact blank_nil
  | @blank _ c _ _ hblank _ ih =>
    exact forall_mem_cons.2 ⟨hblank, ih (CommentFree.of_append (a := [c]) hfree)⟩
  | comment hcomment =>
    rw [append_assoc] at hfree
    exact absurd hcomment (hfree [] _ _ rfl)

section Part

variable {before part after : Text} {token : Token}

/-- A token that starts in the rest of a text is whole there. -/
theorem exists_whole_of_mem (hmem : token ∈ tokens (before ++ rest))
    (hstart : before.byteSize ≤ token.start) : ∃ a back, rest = a ++ (token.text ++ back) ∧
      before.byteSize + a.byteSize = token.start ∧ Whole (before ++ a) token.text back := by
  obtain ⟨front, back, htext, hfront, hwhole, -⟩ :=
    whole_scanFrom _ [] none (.inl rfl) token hmem
  rw [nil_append] at hfront hwhole
  obtain ⟨a, rfl, hrest⟩ := exists_append_of_byteSize_le htext (by omega)
  exact ⟨a, back, hrest, by rw [← hfront, byteSize_append], hwhole⟩

/-- A token that lies in a part of a text in which no comment can be read is a token of the part. -/
theorem exists_mem_tokens_within (hfree : CommentFree part)
    (hmem : token ∈ tokens (before ++ (part ++ after))) (hstart : before.byteSize ≤ token.start)
    (hstop : token.stop ≤ (before ++ part).byteSize) :
    ∃ token' ∈ tokens part, token'.text = token.text ∧
      token.start = before.byteSize + token'.start := by
  have hsize := add_byteSize_of_slice? ((laid_tokens _).slice token hmem)
  obtain ⟨a, back, hpart, hplace, hwhole⟩ := exists_whole_of_mem hmem hstart
  rw [byteSize_append] at hstop
  obtain ⟨b, rfl, rfl⟩ := exists_append_of_byteSize_le
    (show (a ++ token.text) ++ back = part ++ after by rw [hpart, append_assoc])
    (by rw [byteSize_append]; omega)
  rw [append_assoc] at hfree ⊢
  obtain ⟨token', hmem', hsame, hstart'⟩ :=
    exists_mem_scanFrom _ [] none hfree rfl hwhole.within
  exact ⟨token', hmem', hsame, by rw [hstart', nil_append, hplace]⟩

/-- No token starts among blanks. -/
theorem le_start_of_blank (hblank : part.Blank)
    (hmem : token ∈ tokens (before ++ (part ++ after))) (hstart : before.byteSize ≤ token.start) :
    (before ++ part).byteSize ≤ token.start := by
  obtain ⟨a, back, hpart, hplace, hwhole⟩ := exists_whole_of_mem hmem hstart
  refine Nat.le_of_not_lt fun hlt => ?_
  rw [← hplace, byteSize_append] at hlt
  obtain ⟨b, rfl, hb⟩ := exists_append_of_byteSize_le hpart.symm (by omega)
  obtain ⟨c, text, htoken⟩ := exists_cons_of_ne_nil hwhole.ne_nil
  rw [htoken] at hwhole hb
  cases b with
  | nil => simp at hlt
  | cons d b =>
    obtain ⟨rfl, -⟩ := cons.inj hb
    have hc := hblank c (by simp)
    simp [hwhole.isBlank_head] at hc

/-- Only blanks come before the first token of a text in which no comment can be read. -/
theorem exists_blank_of_head? (hfree : CommentFree part) (h : (tokens part).head? = some token) :
    ∃ gap rest, part = gap ++ rest ∧ gap.Blank ∧ gap.byteSize = token.start := by
  obtain ⟨a, gap, rest, rfl, ha, hgap, hblank⟩ :=
    gaps_scanFrom part [] none (by simp) [] (tokens part) rfl
  obtain rfl : a = [] := byteSize_eq_zero_iff.1 (by simpa [stopOf] using ha)
  rw [nil_append] at hfree hgap h
  exact ⟨gap, rest, rfl, hblank.blank_of_commentFree hfree, by simpa [startOf, h] using hgap⟩

/-- Not more tokens come before the first token of a part than before the part. -/
theorem countP_head_le (before after : Text) (hfree : CommentFree part)
    (h : (tokens part).head? = some token) :
    (tokens (before ++ (part ++ after))).countP (·.start < before.byteSize + token.start) ≤
      (tokens (before ++ (part ++ after))).countP (·.start < before.byteSize) := by
  obtain ⟨gap, rest, rfl, hblank, hsize⟩ := exists_blank_of_head? hfree h
  refine Nat.le_of_not_lt fun hlt => ?_
  obtain ⟨other, hmem, hle, hstart⟩ := ((laid_tokens _).countP_lt_iff _ _).1 hlt
  rw [append_assoc] at hmem
  have hafter := le_start_of_blank hblank hmem hle
  rw [byteSize_append] at hafter
  omega

end Part

/-! ## Matches of literals -/

/-- The match starts with a token that is the literal, ends at a place of the text, and has taken
nothing. -/
structure LiteralMatch (sql literal : Text) (found : PatternMatch) (token : Token) : Prop where
  get : (tokens sql)[found.startToken]? = some token
  start : token.start = found.start
  is : token.is literal = true
  stop_le : token.stop ≤ found.stop
  isPlace : sql.IsPlace found.stop
  bindings : found.bindings = []

namespace Search

variable (sql : Text) (literal : Text) (literals : List Text)

/-- Literals take one token each. -/
theorem exists_matchBlocks_literals (attempt : Attempt) (run : List Token) :
    ∃ result, matchBlocks sql (literals.map .literal) attempt run = .ok result ∧
      ∀ finished ∈ result, finished.bindings = attempt.bindings ∧
        (finished.stop = attempt.stop ∨ ∃ last ∈ run, finished.stop = last.stop) := by
  induction literals generalizing attempt run with
  | nil => exact ⟨some attempt, rfl, by simp⟩
  | cons literal literals ih =>
    cases run with
    | nil => exact ⟨none, rfl, by simp⟩
    | cons token later =>
      rw [map_cons, matchBlocks]
      split
      · obtain ⟨result, hresult, hspec⟩ := ih (attempt.afterLiteral sql token later) later
        refine ⟨result, hresult, fun finished hmem => ⟨(hspec finished hmem).1, .inr ?_⟩⟩
        rcases (hspec finished hmem).2 with hstop | ⟨last, hlast, hstop⟩
        · exact ⟨token, mem_cons_self, hstop⟩
        · exact ⟨last, mem_cons_of_mem _ hlast, hstop⟩
      · exact ⟨none, rfl, by simp⟩

theorem exists_matchAt_literals (token : Token) (later : List Token) :
    ∃ result, matchAt sql (.literal literal :: literals.map .literal) token later = .ok result ∧
      ∀ finished ∈ result, token.is literal ∧ finished.bindings = [] ∧
        ∃ last ∈ token :: later, finished.stop = last.stop := by
  by_cases hmatch : (token.is literal && !token.inQuotes)
  · obtain ⟨result, hresult, hspec⟩ := exists_matchBlocks_literals sql literals
      (Attempt.afterLiteral ⟨token.start, token.start, false, []⟩ sql token later) later
    refine ⟨result, by rw [matchAt, if_pos hmatch, hresult], fun finished hmem => ?_⟩
    obtain ⟨hbindings, hstop⟩ := hspec finished hmem
    refine ⟨(Bool.and_eq_true _ _ ▸ hmatch).1, hbindings, ?_⟩
    rcases hstop with hstop | ⟨last, hlast, hstop⟩
    · exact ⟨token, mem_cons_self, hstop⟩
    · exact ⟨last, mem_cons_of_mem _ hlast, hstop⟩
  · exact ⟨none, by rw [matchAt, if_neg hmatch], by simp⟩

theorem exists_firstFrom_literals {index : Nat} {run : List Token}
    (hrun : (tokens sql).drop index = run) :
    ∃ result, firstFrom sql (.literal literal :: literals.map .literal) index run = .ok result ∧
      ∀ found ∈ result, ∃ token, LiteralMatch sql literal found token := by
  induction run generalizing index with
  | nil => exact ⟨none, rfl, by simp⟩
  | cons token later ih =>
    have hnext : (tokens sql).drop (index + 1) = later := by
      rw [← drop_drop, hrun]
      rfl
    have hlaid : Laid sql (token :: later) := by
      rw [← hrun]
      exact (laid_tokens sql).sublist (drop_sublist _ _)
    obtain ⟨result, hresult, hspec⟩ := exists_matchAt_literals sql literal literals token later
    rw [firstFrom, hresult, ok_bind]
    cases result with
    | none => exact ih hnext
    | some finished =>
      obtain ⟨his, hbindings, last, hlast, hstop⟩ := hspec finished rfl
      refine ⟨_, rfl, ?_⟩
      rintro found ⟨⟩
      refine ⟨token, ?_, rfl, his, ?_, ?_, hbindings⟩
      · rw [← head?_drop, hrun]
        rfl
      · change token.stop ≤ finished.stop
        rw [hstop]
        rcases mem_cons.1 hlast with rfl | hlast
        · exact Nat.le_refl _
        · have hordered := (pairwise_cons.1 hlaid.ordered).1 last hlast
          have hlt := hlaid.start_lt_stop (mem_cons_of_mem _ hlast)
          omega
      · change sql.IsPlace finished.stop
        rw [hstop]
        exact hlaid.isPlace_stop hlast

end Search

theorem Parameters.substitute_nil (t : Text) : Parameters.substitute [] t = t := by
  induction t with
  | nil => rw [substitute]
  | cons c t ih =>
    rw [substitute]
    split
    · split
      · rename_i hmatch
        simp [longestMatch?] at hmatch
      · rw [ih]
    · rw [ih]

theorem tokenize_cases (t : Text) : tokenize t = .ok (tokens t) ∨
    ∃ mark offset, tokenize t = .error (.unterminatedLiteral mark offset) := by
  unfold tokenize
  dsimp only
  split
  · exact .inl rfl
  · exact .inr ⟨_, _, rfl⟩

theorem byteSize_lt_stepLimit (t : Text) : t.byteSize < stepLimit t := by
  have hle : t.byteSize ≤ 4 * t.length := by
    induction t with
    | nil => exact Nat.zero_le _
    | cons c t ih =>
      have hc := c.utf8Size_le_four
      rw [byteSize_cons, length_cons]
      omega
  have hsize : UInt64.size = 18446744073709551616 := rfl
  rw [stepLimit, hsize]
  omega

namespace CompiledRule

/-- The pattern of the rule has only literals, and the given one comes first. -/
def HasLiterals (rule : CompiledRule) (literal : Text) : Prop :=
  ∃ literals : List Text, rule.pattern.blocks = .literal literal :: literals.map .literal

namespace HasLiterals

variable {rule : CompiledRule} {literal : Text}

theorem exists_search (h : rule.HasLiterals literal) (sql : Text) (first : Nat) :
    ∃ result, search sql (tokens sql) rule.pattern first = .ok result ∧
      ∀ found ∈ result, ∃ token, LiteralMatch sql literal found token := by
  obtain ⟨literals, hblocks⟩ := h
  rw [search, hblocks]
  exact Search.exists_firstFrom_literals sql literal literals rfl

theorem exists_match (h : rule.HasLiterals literal) {sql : Text} {first : Nat}
    (hsearch : search sql (tokens sql) rule.pattern first = .ok (some found)) :
    ∃ token, LiteralMatch sql literal found token := by
  obtain ⟨result, hresult, hspec⟩ := h.exists_search sql first
  cases hsearch.symm.trans hresult
  exact hspec found rfl

/-- What a step can do : it fails at a literal that is left open, or finds nothing, or puts the
replacement in the place of a match. -/
theorem step_cases (h : rule.HasLiterals literal) (state : Progress) :
    (∃ mark offset, rule.step state = .error (.unterminatedLiteral mark offset)) ∨
    rule.step state = .ok none ∨
    ∃ found before old after, state.sql = before ++ (old ++ after) ∧
      before.byteSize = found.start ∧ (before ++ old).byteSize = found.stop ∧
      rule.Replaces state found
        ⟨before ++ (rule.replacement ++ after), found.startToken + rule.advance⟩ := by
  rcases tokenize_cases state.sql with htokens | ⟨mark, offset, herror⟩
  · obtain ⟨result, hsearch, hspec⟩ := h.exists_search state.sql state.first
    cases result with
    | none =>
      refine .inr (.inl ?_)
      rw [step, htokens, ok_bind, hsearch, ok_bind]
      rfl
    | some found =>
      obtain ⟨token, hmatch⟩ := hspec found rfl
      have hmem := mem_of_getElem? hmatch.get
      have hlt := (laid_tokens state.sql).start_lt_stop hmem
      have hle := hmatch.stop_le
      obtain ⟨before, rest, hbefore, hstart⟩ :=
        isPlace_iff.1 ((laid_tokens state.sql).isPlace_start hmem)
      obtain ⟨before', after, hafter, hstop⟩ := isPlace_iff.1 hmatch.isPlace
      obtain ⟨old, rfl, rfl⟩ :=
        exists_append_of_byteSize_le (hbefore.symm.trans hafter) (by omega)
      have hstart' := hstart.trans hmatch.start
      refine .inr (.inr ⟨found, before, old, after, hbefore, hstart', hstop, hsearch, ?_⟩)
      rw [step, htokens, ok_bind, hsearch, ok_bind]
      simp only [hmatch.bindings, Parameters.substitute_nil]
      rw [hbefore, replaceSlice_append hstart' hstop, ok_bind, append_assoc]
      rfl
  · refine .inl ⟨mark, offset, ?_⟩
    rw [step, herror]
    rfl

theorem exists_parts (h : rule.HasLiterals literal) {state : Progress}
    (hreplaces : rule.Replaces state found next) : ∃ before old after,
      state.sql = before ++ (old ++ after) ∧ before.byteSize = found.start ∧
      (before ++ old).byteSize = found.stop ∧
      next = ⟨before ++ (rule.replacement ++ after), found.startToken + rule.advance⟩ := by
  rcases h.step_cases state with ⟨mark, offset, herror⟩ | hnone |
    ⟨found', before, old, after, htext, hstart, hstop, hreplaces'⟩
  · cases herror.symm.trans hreplaces.step
  · cases hnone.symm.trans hreplaces.step
  · obtain rfl := Option.some.inj (Except.ok.inj (hreplaces'.search.symm.trans hreplaces.search))
    exact ⟨before, old, after, htext, hstart, hstop,
      Option.some.inj (Except.ok.inj (hreplaces.step.symm.trans hreplaces'.step))⟩

end HasLiterals

/-- The pattern of the rule has only literals, no comment can be read in its replacement, and no
token of it but the first is the first literal. -/
structure LiteralRule (rule : CompiledRule) (literal : Text) : Prop where
  blocks : ∃ literals : List Text,
    rule.pattern.blocks = .literal literal :: literals.map .literal
  free : CommentFree rule.replacement
  tail : ∀ token ∈ (tokens rule.replacement).tail, token.is literal = false

namespace LiteralRule

variable {rule : CompiledRule} {literal : Text}

theorem hasLiterals (h : rule.LiteralRule literal) : rule.HasLiterals literal :=
  h.blocks

variable {state : Progress}

/-- A match that is found after a pass does not end in what was put in. -/
theorem lt_stop (h : rule.LiteralRule literal) {found' : PatternMatch}
    (hreplaces : rule.Replaces state found next)
    (hsearch : search next.sql (tokens next.sql) rule.pattern next.first = .ok (some found')) :
    found.start + rule.replacement.byteSize < found'.stop := by
  have hbehind := (hreplaces.behind.mono (Nat.le_add_right _ _)).le_start hsearch
  have hcount := hreplaces.countP_le
  have hfirst := Search.le_startToken hsearch
  obtain ⟨token, hmatch⟩ := h.hasLiterals.exists_match hsearch
  have hindex := (laid_tokens next.sql).countP_start hmatch.get
  have hmem := mem_of_getElem? hmatch.get
  obtain ⟨before, old, after, -, hstart, -, rfl⟩ := h.hasLiterals.exists_parts hreplaces
  rw [← hstart] at hbehind hcount ⊢
  refine Nat.lt_of_not_le fun hle => ?_
  -- the first token of the match would be a token of the replacement
  obtain ⟨inner, hinner, hsame, hplace⟩ := exists_mem_tokens_within h.free hmem
    (by rw [hmatch.start]; exact hbehind)
    (by rw [byteSize_append]; exact Nat.le_trans hmatch.stop_le hle)
  have his : inner.is literal := by
    rw [is, hsame]
    exact hmatch.is
  cases htokens : tokens rule.replacement with
  | nil => simp [htokens] at hinner
  | cons head tail =>
    have htail := h.tail
    rw [htokens] at hinner htail
    rcases mem_cons.1 hinner with rfl | hinner
    · have hhead := countP_head_le before after h.free
        (show (tokens rule.replacement).head? = some inner by rw [htokens]; rfl)
      have hadvance : rule.advance = 1 := by simp [advance, htokens]
      simp only [hplace, hadvance] at hindex hfirst hcount
      omega
    · simp [htail inner hinner] at his

/-- No match ends before the last `size` bytes of the text. -/
def Untouched (rule : CompiledRule) (size : Nat) (state : Progress) : Prop :=
  ∀ found, search state.sql (tokens state.sql) rule.pattern state.first = .ok (some found) →
    state.sql.byteSize < found.stop + size

theorem untouched (h : rule.LiteralRule literal) (sql : Text) (first : Nat) :
    Untouched rule sql.byteSize ⟨sql, first⟩ := by
  intro found hsearch
  obtain ⟨token, hmatch⟩ := h.hasLiterals.exists_match hsearch
  have hlt := (laid_tokens sql).start_lt_stop (mem_of_getElem? hmatch.get)
  have hle := hmatch.stop_le
  simp only
  omega

/-- A pass leaves less of the text untouched. -/
theorem exists_lt (h : rule.LiteralRule literal) (huntouched : Untouched rule size state)
    (hreplaces : rule.Replaces state found next) : ∃ size' < size, Untouched rule size' next := by
  have hsize := huntouched found hreplaces.search
  obtain ⟨before, old, after, htext, hstart, hstop, rfl⟩ := h.hasLiterals.exists_parts hreplaces
  rw [htext, ← append_assoc, byteSize_append, hstop] at hsize
  refine ⟨after.byteSize, by omega, fun found' hsearch => ?_⟩
  have hstop' := h.lt_stop hreplaces hsearch
  simp only [byteSize_append]
  omega

/-- There are not more passes than bytes that are untouched. -/
theorem length_le (h : rule.LiteralRule literal) {stages : List Stage}
    (hpasses : rule.Passes state stages)
    (huntouched : Untouched rule size state) : stages.length ≤ size := by
  induction hpasses generalizing size with
  | nil => exact Nat.zero_le _
  | cons hreplaces _ ih =>
    obtain ⟨size', hlt, hnext⟩ := h.exists_lt huntouched hreplaces
    exact Nat.succ_le_of_lt (Nat.lt_of_le_of_lt (ih hnext) hlt)

/-- Passes lead to a text in which nothing is found, or in which a literal is left open. -/
theorem exists_passes (h : rule.LiteralRule literal)
    (huntouched : Untouched rule size state) : ∃ stages, rule.Passes state stages ∧
      ((∃ mark offset, rule.step (lastState state stages) =
          .error (.unterminatedLiteral mark offset)) ∨
        rule.step (lastState state stages) = .ok none) := by
  induction size using Nat.strongRecOn generalizing state with
  | ind size ih =>
    rcases h.hasLiterals.step_cases state with
      herror | hnone | ⟨found, before, old, after, -, -, -, hreplaces⟩
    · exact ⟨[], .nil state, .inl herror⟩
    · exact ⟨[], .nil state, .inr hnone⟩
    · obtain ⟨size', hlt, hnext⟩ := h.exists_lt huntouched hreplaces
      obtain ⟨stages, hpasses, hend⟩ := ih size' hlt hnext
      exact ⟨⟨found, _⟩ :: stages, .cons hreplaces hpasses, hend⟩

end LiteralRule

/-- A run goes through its passes one after the other. -/
theorem Passes.repeatSteps_eq {rule : CompiledRule} {state : Progress} {stages : List Stage}
    (h : rule.Passes state stages) (limit : Nat) :
    repeatSteps rule.step (limit + stages.length) state =
      repeatSteps rule.step limit (lastState state stages) := by
  induction h with
  | nil => rfl
  | @cons state stage stages hreplaces _ ih =>
    rw [length_cons, ← Nat.add_assoc, repeatSteps, hreplaces.step, ok_bind]
    exact ih

/-- A rule that has only literals ends on every script, if its replacement holds neither `-` nor `/`
and no token of it but the first is the first literal. It makes at most as many passes as the script
has bytes, and after them it finds no match, or a literal that is left open. -/
theorem literals_end (rule : CompiledRule) (literal : Text) (literals : List Text)
    (hblocks : rule.pattern.blocks = (literal :: literals).map .literal)
    (hdash : '-' ∉ rule.replacement) (hslash : '/' ∉ rule.replacement)
    (htail : ∀ token ∈ (tokens rule.replacement).tail, token.is literal = false) (sql : Text) :
    (∀ stages, rule.Passes ⟨sql, 0⟩ stages → stages.length ≤ sql.byteSize) ∧
    ∃ stages, rule.Passes ⟨sql, 0⟩ stages ∧
      ((rule.step (lastState ⟨sql, 0⟩ stages) = .ok none ∧
          rule.apply sql = .ok (lastState ⟨sql, 0⟩ stages).sql) ∨
        ∃ mark offset, rule.apply sql = .error (.unterminatedLiteral mark offset) ∧
          rule.step (lastState ⟨sql, 0⟩ stages) = .error (.unterminatedLiteral mark offset)) := by
  have h : rule.LiteralRule literal :=
    ⟨⟨literals, hblocks⟩, commentFree_of_notMem hdash hslash, htail⟩
  have huntouched := h.untouched sql 0
  refine ⟨fun stages hpasses => h.length_le hpasses huntouched, ?_⟩
  obtain ⟨stages, hpasses, hend⟩ := h.exists_passes huntouched
  obtain ⟨limit, hlimit⟩ : ∃ limit, stepLimit sql = limit + 1 + stages.length := by
    have hlength := h.length_le hpasses huntouched
    have hlt := byteSize_lt_stepLimit sql
    exact ⟨stepLimit sql - 1 - stages.length, by omega⟩
  have hrun := hpasses.repeatSteps_eq (limit + 1)
  rw [← hlimit, repeatSteps] at hrun
  refine ⟨stages, hpasses, ?_⟩
  rcases hend with ⟨mark, offset, herror⟩ | hnone
  · refine .inr ⟨mark, offset, ?_, herror⟩
    rw [apply, Progress.run, hrun, herror]
    rfl
  · refine .inl ⟨hnone, ?_⟩
    rw [apply, Progress.run, hrun, hnone]
    rfl

/-- A rule whose replacement joins what follows the match, so that it is found again there. -/
def joining : CompiledRule where
  pattern := ⟨"ab(".toList, [.literal "ab".toList, .literal "(".toList]⟩
  replacement := "x a".toList

theorem literals_end_joining :
    joining.Passes ⟨"ab(b(b(c".toList, 0⟩
      [⟨⟨0, 3, 0, []⟩, ⟨"x ab(b(c".toList, 1⟩⟩, ⟨⟨2, 5, 1, []⟩, ⟨"x x ab(c".toList, 2⟩⟩,
        ⟨⟨4, 7, 2, []⟩, ⟨"x x x ac".toList, 3⟩⟩] ∧
    (joining.apply "ab(b(b(c".toList).toOption = some "x x x ac".toList ∧
    ∀ stages, joining.Passes ⟨"ab(b(b(c".toList, 0⟩ stages → stages.length ≤ 8 := by
  refine ⟨.cons ⟨eq_ok_of_toOption ?_, eq_ok_of_toOption ?_⟩ (.cons
    ⟨eq_ok_of_toOption ?_, eq_ok_of_toOption ?_⟩ (.cons
      ⟨eq_ok_of_toOption ?_, eq_ok_of_toOption ?_⟩ (.nil _))), ?_, ?_⟩
  case refine_8 =>
    exact (literals_end joining "ab".toList ["(".toList] rfl (by decide) (by decide)
      (by decide +kernel) _).1
  all_goals decide +kernel

end CompiledRule

end SqlScript
