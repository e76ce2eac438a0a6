import SqlScript.Proofs.Scanning

/-!
# Reading a text that is changed from some place on

Let a text be changed from a place on at which a token starts. What stands before the place is read
as it was, piece by piece : a blank stays one, a comment that was closed is closed at the same place
(`splitComment?_append`), and a symbol stays one unless a comment opens with it now. The last word
before the place may run on into the new text, but it starts where it did. A comment that opens now
runs past the place (`byteSize_le_of_splitComment?`) and takes the tokens up to there away. So as
many tokens start before the place as did, or a comment opens there and they are not more
(`Token.countP_scanFrom_cases`).
-/

namespace SqlScript

open List Option Text

variable {before new old : Text}

namespace Text

/-! ## First occurrences -/

theorem strip?_eq_none_iff {t lead : Text} : strip? t lead = none ↔ ¬ lead <+: t := by
  rw [eq_none_iff_forall_ne_some]
  constructor
  · rintro h ⟨rest, rfl⟩
    exact h rest (strip?_append lead rest)
  · intro h rest hstrip
    exact h ⟨rest, append_of_strip? hstrip⟩

/-- A mark that is found nowhere does not occur. -/
theorem cut?_eq_none_iff {t mark : Text} : cut? t mark = none ↔ ¬ mark <:+: t := by
  induction t with
  | nil =>
    rw [cut?, cutBy?, map_eq_none_iff, strip?_eq_none_iff, prefix_nil, infix_nil]
  | cons c t ih =>
    simp only [cut?] at ih
    rw [cut?, cutBy?, infix_cons_iff, not_or, ← ih, ← strip?_eq_none_iff]
    split
    · rename_i hstrip
      simp [hstrip]
    · rename_i hstrip
      simp [hstrip]

/-- A mark does not occur before the place where it is found. -/
theorem not_infix_of_cut? {t mark rest : Text} (hmark : mark ≠ [])
    (h : cut? t mark = some (before, rest)) : ¬ mark <:+: before := by
  induction t generalizing before with
  | nil =>
    simp only [cut?, cutBy?, map_eq_some_iff, Prod.mk.injEq] at h
    obtain ⟨-, -, rfl, -⟩ := h
    simpa using hmark
  | cons c t ih =>
    simp only [cut?, cutBy?] at h
    split at h
    · simp only [some.injEq, Prod.mk.injEq] at h
      obtain ⟨rfl, -⟩ := h
      simpa using hmark
    · rename_i hstrip
      simp only [map_eq_some_iff, Prod.mk.injEq, Prod.exists] at h
      obtain ⟨before, rest, hcut, rfl, rfl⟩ := h
      rw [infix_cons_iff, not_or]
      refine ⟨fun hpre => strip?_eq_none_iff.1 hstrip ?_, ih hcut⟩
      rw [← append_of_cut? hcut, ← cons_append]
      exact hpre.trans (prefix_append _ _)

/-- A mark whose first character stands at no other place of it is found behind a text that lacks
the mark. -/
theorem cut?_of_not_infix {m : Char} {ms : Text} (hm : m ∉ ms)
    (h : ¬ m :: ms <:+: before) (rest : Text) :
    cut? (before ++ (m :: ms ++ rest)) (m :: ms) = some (before, rest) := by
  induction before with
  | nil => exact cut?_append m ms not_mem_nil rest
  | cons c before ih =>
    rw [infix_cons_iff, not_or] at h
    have hcut := ih h.2
    have hstrip : strip? (c :: before ++ (m :: ms ++ rest)) (m :: ms) = none := by
      rw [strip?_eq_none_iff]
      intro hpre
      have hboth := prefix_or_prefix_of_prefix hpre (prefix_append (c :: before) _)
      obtain ⟨y, hy⟩ := hboth.resolve_left h.1
      obtain ⟨z, hz⟩ := hpre
      obtain ⟨rfl, rfl⟩ := cons.inj hy
      -- the mark would go on behind the text before it, and hold its first character again
      cases y with
      | nil => exact h.1 ⟨[], by simp⟩
      | cons d y =>
        obtain ⟨rfl, -⟩ : d = c ∧ _ := by simpa using hz
        exact hm (by simp)
    simp only [cut?] at hcut ⊢
    simp only [cons_append, cutBy?] at hcut hstrip ⊢
    simp only [hstrip, hcut, map_some]

theorem cut?_singleton {t rest : Text} {c : Char} :
    cut? t [c] = some (before, rest) ↔ t = before ++ c :: rest ∧ c ∉ before := by
  constructor
  · intro h
    refine ⟨(append_of_cut? h).symm, fun hmem => not_infix_of_cut? (by simp) h ?_⟩
    obtain ⟨front, back, rfl⟩ := append_of_mem hmem
    exact ⟨front, back, by simp⟩
  · rintro ⟨rfl, hnot⟩
    exact cut?_append c [] hnot rest

end Text

/-! ## Comments -/

/-- A comment, and what follows it in the text. -/
inductive IsComment : Text → Text → Prop
  /-- A line comment runs through the end of its line. -/
  | line {s : Text} (rest : Text) (hline : '\n' ∉ s)
      (hhint : startsWithFolded s "hint".toList = false) :
      IsComment ('-' :: '-' :: (s ++ ['\n'])) rest
  /-- A line comment on the last line runs to the end of the text. -/
  | lastLine {s : Text} (hline : '\n' ∉ s)
      (hhint : startsWithFolded s "hint".toList = false) : IsComment ('-' :: '-' :: s) []
  /-- A block comment runs through the first closing mark. -/
  | block {s : Text} (rest : Text) (hblock : ¬ ['*', '/'] <:+: s) :
      IsComment ('/' :: '*' :: (s ++ ['*', '/'])) rest
  /-- A block comment that is not closed runs to the end of the text. -/
  | lastBlock {s : Text} (hblock : ¬ ['*', '/'] <:+: s) : IsComment ('/' :: '*' :: s) []

variable {rest t body : Text}

/-- Whether the word that keeps dashes from being a comment stands behind them is told before a
character that is in no word. -/
theorem startsWithFolded_hint (hrest : rest.head?.any isWordChar = false) (s : Text) :
    startsWithFolded (s ++ rest) "hint".toList = startsWithFolded s "hint".toList := by
  have hchars : ∀ p ∈ "hint".toList, isWordChar p := all_eq_true.1 (by decide)
  unfold startsWithFolded stripFolded?
  generalize "hint".toList = lead at hchars
  induction lead generalizing s with
  | nil => rfl
  | cons p lead ih =>
    obtain ⟨hp, hlead⟩ := forall_mem_cons.1 hchars
    cases s with
    | cons c s =>
      simp only [cons_append, stripBy?]
      split
      · exact ih s hlead
      · rfl
    | nil =>
      cases rest with
      | nil => rfl
      | cons c rest =>
        have hne : p.toLower ≠ c.toLower := by
          intro heq
          rw [head?_cons, any_some, ← isWordChar_toLower, ← heq, isWordChar_toLower, hp] at hrest
          simp at hrest
        simp [stripBy?, hne]

theorem splitComment?_eq_some_iff :
    splitComment? t = some (body, rest) ↔ t = body ++ rest ∧ IsComment body rest := by
  have hbreak : ∀ rest : Text, ('\n' :: rest).head?.any isWordChar = false :=
    fun _ => (by decide : isWordChar '\n' = false)
  constructor
  · intro h
    refine ⟨(append_of_splitComment? h).1.symm, ?_⟩
    unfold splitComment? at h
    split at h
    · rename_i t
      have hmem : '\n' ∉ t.takeWhile (· != '\n') := fun hmem => by
        simpa using all_eq_true.1 all_takeWhile _ hmem
      have hwhole := takeWhile_append_dropWhile (p := (· != '\n')) (l := t)
      split at h
      · simp at h
      · rename_i hhint
        rw [Bool.not_eq_true] at hhint
        dsimp only at h
        split at h
        · rename_i hdrop
          simp only [some.injEq, Prod.mk.injEq] at h
          obtain ⟨rfl, rfl⟩ := h
          rw [hdrop, append_nil] at hwhole
          exact .lastLine hmem (by rw [hwhole]; exact hhint)
        · rename_i lineBreak rest' hdrop
          simp only [some.injEq, Prod.mk.injEq] at h
          obtain ⟨rfl, rfl⟩ := h
          obtain rfl : lineBreak = '\n' := by
            have hhead := head?_dropWhile_not (· != '\n') t
            rw [hdrop] at hhead
            simpa using hhead
          rw [← hwhole, hdrop, startsWithFolded_hint (hbreak rest')] at hhint
          exact .line rest' hmem hhint
    · rename_i t
      split at h
      · rename_i body' rest' hcut
        simp only [some.injEq, Prod.mk.injEq] at h
        obtain ⟨rfl, rfl⟩ := h
        exact .block rest' (not_infix_of_cut? (by decide) hcut)
      · rename_i hcut
        simp only [some.injEq, Prod.mk.injEq] at h
        obtain ⟨rfl, rfl⟩ := h
        exact .lastBlock (cut?_eq_none_iff.1 hcut)
    · simp at h
  · rintro ⟨rfl, hcomment⟩
    have hchars : ∀ s : Text, '\n' ∉ s → ∀ c ∈ s, (c != '\n') := by
      intro s hline c hc
      simpa using ne_of_mem_of_not_mem hc hline
    cases hcomment with
    | @line s rest hline hhint =>
      rw [← startsWithFolded_hint (hbreak rest)] at hhint
      have htake : (s ++ '\n' :: rest).takeWhile (· != '\n') = s := by
        rw [takeWhile_append_of_pos (hchars s hline)]
        simp
      have hdrop : (s ++ '\n' :: rest).dropWhile (· != '\n') = '\n' :: rest := by
        rw [dropWhile_append_of_pos (hchars s hline)]
        simp
      rw [cons_append, cons_append, append_assoc, singleton_append]
      simp only [splitComment?, hhint, htake, hdrop, Bool.false_eq_true, if_false]
    | @lastLine s hline hhint =>
      have htake : (s ++ []).takeWhile (· != '\n') = s ++ [] :=
        takeWhile_append_of_pos (hchars s hline)
      have hdrop : (s ++ []).dropWhile (· != '\n') = [] :=
        dropWhile_append_of_pos (hchars s hline)
      rw [append_nil] at htake hdrop
      simp only [append_nil, splitComment?, hhint, htake, hdrop, Bool.false_eq_true, if_false]
    | @block s rest hblock =>
      have hcut : cut? (s ++ '*' :: '/' :: rest) ['*', '/'] = some (s, rest) :=
        cut?_of_not_infix (by decide) hblock rest
      simp [splitComment?, hcut]
    | lastBlock hblock =>
      have hcut := cut?_eq_none_iff.2 hblock
      simp [splitComment?, hcut]

/-- A comment ends the text, or its last character is no word character. -/
theorem IsComment.eq_nil_or (h : IsComment body rest) :
    rest = [] ∨ ∃ init c, body = init ++ [c] ∧ isWordChar c = false := by
  cases h with
  | @line s => exact .inr ⟨'-' :: '-' :: s, '\n', rfl, by decide +kernel⟩
  | lastLine => exact .inl rfl
  | @block s => exact .inr ⟨'/' :: '*' :: (s ++ ['*']), '/', by simp, by decide +kernel⟩
  | lastBlock => exact .inl rfl

/-- A comment that something follows is one whatever follows it. -/
theorem splitComment?_append (h : splitComment? t = some (body, rest)) (hrest : rest ≠ [])
    (rest' : Text) : splitComment? (body ++ rest') = some (body, rest') := by
  refine splitComment?_eq_some_iff.2 ⟨rfl, ?_⟩
  cases (splitComment?_eq_some_iff.1 h).2 with
  | line _ hline hhint => exact .line rest' hline hhint
  | lastLine => exact absurd rfl hrest
  | block _ hblock => exact .block rest' hblock
  | lastBlock => exact absurd rfl hrest

theorem splitComment?_dashes_eq_none_iff : splitComment? ('-' :: '-' :: t) = none ↔
    startsWithFolded t "hint".toList := by
  simp only [splitComment?]
  split
  · rename_i hhint
    exact iff_of_true rfl hhint
  · rename_i hhint
    refine iff_of_false ?_ hhint
    split <;> simp

theorem splitComment?_block_ne_none (t : Text) : splitComment? ('/' :: '*' :: t) ≠ none := by
  simp only [splitComment?]
  split <;> simp

/-- A comment that opens before a change and did not before runs past the change. -/
theorem byteSize_le_of_splitComment? (hnone : splitComment? (before ++ old) = none)
    (h : splitComment? (before ++ new) = some (body, rest)) : before.byteSize ≤ body.byteSize := by
  refine Nat.le_of_not_lt fun hlt => ?_
  obtain ⟨tail, rfl, rfl⟩ :=
    exists_append_of_byteSize_le (append_of_splitComment? h).1 (Nat.le_of_lt hlt)
  have hne : tail ++ new ≠ [] := by
    intro hnil
    obtain ⟨rfl, rfl⟩ := append_eq_nil_iff.1 hnil
    simp at hlt
  have hold := splitComment?_append h hne (tail ++ old)
  rw [append_assoc, hold] at hnone
  cases hnone

/-! ## The tokens before the change -/

/-- The first piece stays the same when what follows it changes, if that goes on with no word and no
comment mark, and no comment is left open. -/
theorem piece?_of_rest {inQuotes : Bool} {piece : Piece}
    (h : piece? inQuotes (piece.text ++ old) = some (piece, old))
    (hcomment : ∀ body, piece = .comment body → old ≠ [])
    (hword : ∀ run, piece = .word run → old.head?.any isWordChar = false →
      new.head?.any isWordChar = false)
    (hsymbol : ∀ c, piece = .symbol c → inQuotes = false → splitComment? (c :: old) = none →
      splitComment? (c :: new) = none) :
    piece? inQuotes (piece.text ++ new) = some (piece, new) := by
  cases piece with
  | word run =>
    obtain ⟨-, hne, hchars, hhead⟩ := piece?_eq_word_iff.1 h
    exact piece?_eq_word_iff.2 ⟨rfl, hne, hchars, hword run rfl hhead⟩
  | symbol c =>
    obtain ⟨-, hword, hblank, hnone⟩ := piece?_eq_symbol_iff.1 h
    refine piece?_eq_symbol_iff.2 ⟨rfl, hword, hblank, ?_⟩
    cases inQuotes with
    | true => exact .inl rfl
    | false => exact .inr (hsymbol c rfl rfl (hnone.resolve_left (by simp)))
  | blank c => exact piece?_eq_blank_iff.2 ⟨rfl, (piece?_eq_blank_iff.1 h).2⟩
  | comment body =>
    obtain ⟨houtside, hsplit⟩ := piece?_eq_comment_iff.1 h
    exact piece?_eq_comment_iff.2 ⟨houtside, splitComment?_append hsplit (hcomment body rfl) new⟩

namespace Token

variable {front : Text} {quote : Option OpenQuote} {token : Token}

theorem le_start_of_mem_scanFrom {t : Text}
    (h : token ∈ (scanFrom front.byteSize quote t).tokens) : front.byteSize ≤ token.start :=
  (laid_scanFrom t front quote).2 token h

/-- No token starts before the text. -/
theorem countP_scanFrom_eq_zero {t : Text} {offset : Nat} (h : offset ≤ front.byteSize) :
    (scanFrom front.byteSize quote t).tokens.countP (·.start < offset) = 0 := by
  rw [countP_eq_zero]
  intro token hmem
  have hle := le_start_of_mem_scanFrom hmem
  simp only [decide_eq_true_eq]
  omega

/-- One token starts in a word, however long the word goes on. -/
theorem countP_scanFrom_word (front : Text) {run : Text} (hne : run ≠ [])
    (hrun : ∀ c ∈ run, isWordChar c) (t : Text) (quote : Option OpenQuote) :
    (scanFrom front.byteSize quote (run ++ t)).tokens.countP
      (·.start < (front ++ run).byteSize) = 1 := by
  have hpos : run.byteSize ≠ 0 := mt byteSize_eq_zero_iff.1 hne
  have hpiece : piece? quote.isSome (run ++ t) =
      some (.word (run ++ t.takeWhile isWordChar), t.dropWhile isWordChar) := by
    refine piece?_eq_word_iff.2 ⟨?_, by simp [hne], ?_, ?_⟩
    · rw [append_assoc, takeWhile_append_dropWhile]
    · exact forall_mem_append.2 ⟨hrun, all_eq_true.1 all_takeWhile⟩
    · cases hdrop : t.dropWhile isWordChar with
      | nil => rfl
      | cons d rest =>
        have hd := head?_dropWhile_not isWordChar t
        rw [hdrop] at hd
        simpa using hd
  have hlater : (front ++ run).byteSize ≤ (front ++ (run ++ t.takeWhile isWordChar)).byteSize := by
    simp only [byteSize_append]
    omega
  rw [tokens_scanFrom _ _ hpiece, countP_append, Piece.text, ← byteSize_append,
    countP_scanFrom_eq_zero hlater, byteSize_append]
  simp [Piece.tokens, Nat.pos_of_ne_zero hpos]

/-- A token is the first piece of a text, or a token of the rest. -/
theorem exists_piece_of_mem {t : Text}
    (h : token ∈ (scanFrom front.byteSize quote t).tokens) : ∃ piece rest,
      piece? quote.isSome t = some (piece, rest) ∧
      (token ∈ piece.tokens front.byteSize quote ∨
        token ∈ (scanFrom (front ++ piece.text).byteSize
          (piece.quoteAfter front.byteSize quote) rest).tokens) := by
  cases hpiece : piece? quote.isSome t with
  | none => simp [eq_nil_of_piece?_eq_none hpiece, tokens_scanFrom_nil] at h
  | some found =>
    rw [tokens_scanFrom _ _ hpiece, ← byteSize_append, mem_append] at h
    exact ⟨found.1, found.2, rfl, h⟩

/-- A token at the start of a text is its first piece. -/
theorem exists_piece_at {t : Text} (h : token ∈ (scanFrom front.byteSize quote t).tokens)
    (hstart : token.start = front.byteSize) :
    ∃ piece rest, piece? quote.isSome t = some (piece, rest) ∧
      token ∈ piece.tokens front.byteSize quote := by
  obtain ⟨piece, rest, hpiece, hmem⟩ := exists_piece_of_mem h
  refine ⟨piece, rest, hpiece, hmem.resolve_right fun hlater => ?_⟩
  have hle := le_start_of_mem_scanFrom hlater
  have hpos := mt byteSize_eq_zero_iff.1 (append_of_piece? hpiece).2
  rw [byteSize_append] at hle
  omega

theorem exists_piece_before (hne : before ≠ [])
    (hmem : token ∈ (scanFrom front.byteSize quote (before ++ old)).tokens)
    (hstart : token.start = (front ++ before).byteSize) : ∃ piece before',
      before = piece.text ++ before' ∧
      piece? quote.isSome (before ++ old) = some (piece, before' ++ old) ∧
      token ∈ (scanFrom (front ++ piece.text).byteSize (piece.quoteAfter front.byteSize quote)
        (before' ++ old)).tokens := by
  obtain ⟨piece, rest, hpiece, hmem⟩ := exists_piece_of_mem hmem
  have hpos : before.byteSize ≠ 0 := mt byteSize_eq_zero_iff.1 hne
  rw [byteSize_append] at hstart
  have hlater := hmem.resolve_left fun hmem => by
    have hfirst : token.start = front.byteSize := by rw [eq_of_mem_piece hmem]
    omega
  have hle := le_start_of_mem_scanFrom hlater
  rw [byteSize_append] at hle
  obtain ⟨before', rfl, rfl⟩ := exists_append_of_byteSize_le (append_of_piece? hpiece).1
    (by omega)
  exact ⟨piece, before', rfl, hpiece, hlater⟩

/-- As many tokens start before a place where a token starts, if the text is changed from there on;
or a comment opens before the place that did not, and not more tokens do. -/
theorem countP_scanFrom_cases (front before old new : Text) (quote : Option OpenQuote)
    (hmem : token ∈ (scanFrom front.byteSize quote (before ++ old)).tokens)
    (hstart : token.start = (front ++ before).byteSize) :
    (scanFrom front.byteSize quote (before ++ new)).tokens.countP
        (·.start < (front ++ before).byteSize) =
      (scanFrom front.byteSize quote (before ++ old)).tokens.countP
        (·.start < (front ++ before).byteSize) ∨
    (scanFrom front.byteSize quote (before ++ new)).tokens.countP
        (·.start < (front ++ before).byteSize) ≤
      (scanFrom front.byteSize quote (before ++ old)).tokens.countP
        (·.start < (front ++ before).byteSize) ∧
      ∃ a s, before = a ++ s ∧ s ≠ [] ∧ splitComment? (s ++ old) = none ∧
        splitComment? (s ++ new) ≠ none := by
  -- by induction on the length of what stands before the change, since a piece may be of any length
  induction hlength : before.length using Nat.strongRecOn generalizing front before quote with
  | ind n ih =>
    subst hlength
    by_cases hne : before = []
    · subst hne
      have hle : (front ++ []).byteSize ≤ front.byteSize := by simp
      exact .inl (by rw [countP_scanFrom_eq_zero hle, countP_scanFrom_eq_zero hle])
    · by_cases hopens : quote.isSome = false ∧ splitComment? (before ++ old) = none ∧
          splitComment? (before ++ new) ≠ none
      · -- the comment takes all the tokens up to the place away
        obtain ⟨houtside, hnone, hsome⟩ := hopens
        obtain ⟨⟨body, rest⟩, hsplit⟩ := ne_none_iff_exists'.1 hsome
        have hpiece : piece? quote.isSome (before ++ new) = some (.comment body, rest) :=
          piece?_eq_comment_iff.2 ⟨houtside, hsplit⟩
        have hle : (front ++ before).byteSize ≤ (front ++ body).byteSize := by
          have hsize := byteSize_le_of_splitComment? hnone hsplit
          simp only [byteSize_append]
          omega
        refine .inr ⟨?_, [], before, rfl, hne, hnone, hsome⟩
        rw [tokens_scanFrom _ _ hpiece, Piece.tokens, nil_append, Piece.text,
          ← byteSize_append, countP_scanFrom_eq_zero hle]
        exact Nat.zero_le _
      · obtain ⟨piece, before', rfl, hpiece, hlater⟩ := exists_piece_before hne hmem hstart
        by_cases hlast : before' = [] ∧ ∃ run, piece = .word run
        · obtain ⟨rfl, run, rfl⟩ := hlast
          obtain ⟨-, hrunNe, hrun, -⟩ := piece?_eq_word_iff.1 hpiece
          rw [Piece.text, append_nil, countP_scanFrom_word front hrunNe hrun,
            countP_scanFrom_word front hrunNe hrun]
          exact .inl rfl
        · have hrest : before' ++ old ≠ [] := by
            intro hnil
            rw [hnil, tokens_scanFrom_nil] at hlater
            simp at hlater
          have hshort : before'.length < (piece.text ++ before').length := by
            have hlength := length_lt_of_piece? hpiece
            simp only [length_append] at hlength ⊢
            omega
          rw [append_assoc] at hpiece
          have hpiece' : piece? quote.isSome (piece.text ++ (before' ++ new)) =
              some (piece, before' ++ new) := by
            refine piece?_of_rest hpiece (fun _ _ => hrest) (fun run hrun hhead => ?_) ?_
            · obtain ⟨c, before', rfl⟩ :=
                exists_cons_of_ne_nil fun hnil => hlast ⟨hnil, run, hrun⟩
              exact hhead
            · rintro c rfl houtside hnone
              exact Decidable.byContradiction fun hsome => hopens ⟨houtside, hnone, hsome⟩
          have hstep := ih before'.length hshort (front ++ piece.text) before' _ hlater
            (by rw [hstart, append_assoc]) rfl
          simp only [append_assoc, tokens_scanFrom _ _ hpiece, tokens_scanFrom _ _ hpiece',
            countP_append, ← byteSize_append]
          simp only [append_assoc] at hstep
          rcases hstep with heq | ⟨hle, a, s, rfl, hopened⟩
          · exact .inl (by rw [heq])
          · refine .inr ⟨Nat.add_le_add_left hle _, piece.text ++ a, s, ?_, hopened⟩
            rw [append_assoc]

end Token

/-- A comment opens at the offset, if it is read from there. -/
def opensComment (t : Text) (offset : Nat) : Bool :=
  ((t.dropBytes? offset).bind splitComment?).isSome

theorem opensComment_append (a t : Text) :
    opensComment (a ++ t) a.byteSize = (splitComment? t).isSome := by
  rw [opensComment, dropBytes?_append, bind_some]

/-- A text keeps the number of tokens before a change, if no comment opens there that did not. -/
theorem countP_tokens {token : Token}
    (hmem : token ∈ tokens (before ++ old)) (hstart : token.start = before.byteSize)
    (hcomment : ∀ p < before.byteSize, opensComment (before ++ new) p →
      opensComment (before ++ old) p) :
    (tokens (before ++ new)).countP (·.start < before.byteSize) =
      (tokens (before ++ old)).countP (·.start < before.byteSize) := by
  rcases Token.countP_scanFrom_cases [] before old new none hmem hstart with
    heq | ⟨-, a, s, rfl, hne, hnone, hsome⟩
  · exact heq
  · have hpos : s.byteSize ≠ 0 := mt byteSize_eq_zero_iff.1 hne
    have hopens := hcomment a.byteSize (by rw [byteSize_append]; omega)
    rw [append_assoc, append_assoc, opensComment_append, opensComment_append, hnone,
      isSome_iff_ne_none] at hopens
    exact absurd (hopens hsome) (by decide)

/-- A change does not add to the tokens before it. -/
theorem countP_tokens_le (new : Text) {token : Token}
    (hmem : token ∈ tokens (before ++ old)) (hstart : token.start = before.byteSize) :
    (tokens (before ++ new)).countP (·.start < before.byteSize) ≤
      (tokens (before ++ old)).countP (·.start < before.byteSize) := by
  rcases Token.countP_scanFrom_cases [] before old new none hmem hstart with heq | ⟨hle, -⟩
  · exact Nat.le_of_eq heq
  · exact hle

end SqlScript
