import SqlScript.Proofs.Uncommented

/-!
# Variables with a regular expression

The regular expression of a variable stands in parentheses, and its end is found among the tokens of
the pattern in small letters : a parenthesis counts unless a backslash is the token before it. A
token may be a word of many characters, blanks are no tokens, and a quote mark changes how the rest
is read. None of that plays a role where the parentheses are balanced character by character
(`Pattern.closing?_scanFrom`), so the expression is cut out of the pattern as it is written
(`Pattern.compile_constrained`).
-/

namespace SqlScript

open List Token Text

/-- The first piece of a text without comments stays when a text follows that goes on with no word
and no comment. -/
theorem Uncommented.piece?_append {quote : Option OpenQuote} {piece : Piece} {rest : Text}
    (h : Uncommented (piece.text ++ rest))
    (hpiece : piece? quote.isSome (piece.text ++ rest) = some (piece, rest)) {c : Char}
    (hword : isWordChar c = false) (hdash : c ≠ '-') (hstar : c ≠ '*') (after : Text) :
    piece? quote.isSome (piece.text ++ (rest ++ c :: after)) =
      some (piece, rest ++ c :: after) := by
  refine piece?_of_rest hpiece ?_ ?_ ?_
  · rintro body rfl
    exact absurd (splitComment?_eq_some_iff.1 (piece?_eq_comment_iff.1 hpiece).2).2
      (h.commentFree [] body rest rfl)
  · intro _ _ hhead
    cases rest with
    | nil => simpa using hword
    | cons d rest => exact hhead
  · rintro d rfl _ _
    cases rest with
    | nil => exact splitComment?_eq_none_of_ne (by simp [hdash]) (by simp [hstar]) after
    | cons e rest =>
      refine splitComment?_eq_none_of_ne ?_ ?_ _
      · rintro ⟨rfl, rfl⟩
        exact h.line ⟨[], rest, rfl⟩
      · rintro ⟨rfl, rfl⟩
        exact h.block ⟨[], rest, rfl⟩

namespace Pattern

/-- Whether the text closes `depth` parentheses by its end and none too many before, when the
character behind a backslash does not count. No backslash is the last character or escapes a
blank. -/
def isBalanced (depth : Nat) (escaped : Bool) : Text → Bool
  | [] => depth == 0 && !escaped
  | c :: t =>
    if escaped then !isBlank c && isBalanced depth false t
    else if c == '\\' then isBalanced depth true t
    else if c == '(' then isBalanced (depth + 1) false t
    else if c == ')' then depth != 0 && isBalanced (depth - 1) false t
    else isBalanced depth false t

theorem isWordChar_marks :
    isWordChar '\\' = false ∧ isWordChar '(' = false ∧ isWordChar ')' = false := by
  decide +kernel

variable {depth : Nat} {escaped : Bool} {rest : Text}

theorem isBalanced_append_of_isWordChar {run : Text} (hne : run ≠ [])
    (hrun : ∀ c ∈ run, isWordChar c) (t : Text) :
    isBalanced depth escaped (run ++ t) = isBalanced depth false t := by
  obtain ⟨hbackslash, hopening, hclosing⟩ := isWordChar_marks
  induction run generalizing escaped with
  | nil => exact absurd rfl hne
  | cons c run ih =>
    obtain ⟨hc, hrun⟩ := forall_mem_cons.1 hrun
    have hplain : ∀ d, isWordChar d = false → c ≠ d := by
      rintro d hd rfl
      simp [hc] at hd
    have hstep : isBalanced depth escaped (c :: (run ++ t)) =
        isBalanced depth false (run ++ t) := by
      cases escaped <;> simp [isBalanced, isBlank_of_isWordChar hc, hplain _ hbackslash,
        hplain _ hopening, hplain _ hclosing]
    rw [cons_append, hstep]
    cases run with
    | nil => rfl
    | cons d run => exact ih (cons_ne_nil d run) hrun

/-- A piece changes the depth and the escape as a token in the way it does as a text. -/
theorem exists_closing?_piece {piece : Piece} {quote : Option OpenQuote}
    (hpiece : piece? quote.isSome (piece.text ++ rest) = some (piece, rest))
    (hfree : Uncommented (piece.text ++ rest)) (h : isBalanced depth escaped (piece.text ++ rest))
    (offset : Nat) : ∃ depth' escaped', isBalanced depth' escaped' rest ∧ ∀ later,
      closing? depth escaped ((piece.tokens offset quote).map small ++ later) =
        closing? depth' escaped' later := by
  cases piece with
  | word run =>
    obtain ⟨-, hne, hrun, -⟩ := piece?_eq_word_iff.1 hpiece
    rw [Piece.text, isBalanced_append_of_isWordChar hne hrun] at h
    have hplain : ∀ d, isWordChar d = false → run.toLowerAscii ≠ [d] := by
      rintro d hd hsingle
      obtain ⟨c, rfl, hc⟩ := map_eq_singleton_iff.1 hsingle
      rw [← hc, isWordChar_toLower, hrun c mem_cons_self] at hd
      cases hd
    obtain ⟨hbackslash, hopening, hclosing⟩ := isWordChar_marks
    refine ⟨depth, false, h, fun later => ?_⟩
    simp [Piece.tokens, small, closing?, hplain _ hbackslash, hplain _ hopening, hplain _ hclosing]
  | symbol c =>
    obtain ⟨-, hword, -⟩ := piece?_eq_symbol_iff.1 hpiece
    simp only [Piece.text, singleton_append, isBalanced] at h
    simp only [Piece.tokens, map_singleton, small, Text.toLowerAscii,
      toLower_eq_self_of_isWordChar_eq_false hword, singleton_append, closing?]
    grind
  | blank c =>
    have hc := (piece?_eq_blank_iff.1 hpiece).2
    have hplain : c ≠ '\\' ∧ c ≠ '(' ∧ c ≠ ')' := by
      refine ⟨?_, ?_, ?_⟩ <;> rintro rfl <;> exact absurd hc (by decide)
    cases escaped with
    | true => simp [Piece.text, isBalanced, hc] at h
    | false =>
      simp only [Piece.text, singleton_append, isBalanced, beq_iff_eq, hplain] at h
      exact ⟨depth, false, h, fun later => rfl⟩
  | comment body =>
    exact absurd (splitComment?_eq_some_iff.1 (piece?_eq_comment_iff.1 hpiece).2).2
      (hfree.commentFree [] body rest rfl)

/-- The parenthesis behind a balanced text is the one that closes. -/
theorem closing?_scanFrom {r : Text} (hfree : Uncommented r) (h : isBalanced depth escaped r)
    (quote : Option OpenQuote) (offset : Nat) (after : Text) : ∃ flag quote',
      closing? depth escaped ((scanFrom offset quote (r ++ ')' :: after)).tokens.map small) =
        some (⟨offset + r.byteSize, offset + r.byteSize + 1, [')'], flag⟩,
          (scanFrom (offset + r.byteSize + 1) quote' after).tokens.map small) := by
  obtain ⟨-, -, hword⟩ := isWordChar_marks
  induction quote, r using piece_induction generalizing depth escaped offset with
  | nil quote =>
    have hpiece : piece? quote.isSome (')' :: after) = some (.symbol ')', after) :=
      piece?_eq_symbol_iff.2 ⟨rfl, hword, by decide,
        .inr (splitComment?_of_ne (by decide) (by decide) after)⟩
    obtain ⟨rfl, rfl⟩ : depth = 0 ∧ escaped = false := by simpa [isBalanced] using h
    refine ⟨quote.isSome, quoteAfter quote offset ')', ?_⟩
    rw [nil_append, tokens_scanFrom _ _ hpiece]
    rfl
  | piece quote piece rest hpiece ih =>
    obtain ⟨depth', escaped', hrest, hclosing⟩ := exists_closing?_piece hpiece hfree h offset
    obtain ⟨flag, quote', hfound⟩ := ih (piece.quoteAfter offset quote)
      (hfree.of_isInfix (suffix_append _ rest).isInfix) hrest (offset + piece.text.byteSize)
    refine ⟨flag, quote', ?_⟩
    rw [append_assoc, tokens_scanFrom _ _ (hfree.piece?_append hpiece hword (by decide) (by decide)
      after), map_append, hclosing, hfound, byteSize_append, Nat.add_assoc offset]

theorem blocksOf_constrained (source : Text) (sign paren : Token) {close name : Token}
    {inside later : List Token} (hsign : sign.text = ['@']) (hparen : paren.text = ['('])
    (hclosing : closing? 0 false inside = some (close, name :: later)) (hname : isName close name) :
    blocksOf source (sign :: paren :: inside) = (do
      let constraint ← constraintBetween source paren close
      let blocks ← blocksOf source later
      return .placeholder name.text (some constraint) :: blocks) := by
  rw [blocksOf, if_pos (by simp [hsign, hparen])]
  split
  · simp_all
  · simp_all
  · rename_i heq
    cases hclosing.symm.trans heq
    rw [if_pos hname]

/-- The text is a word that is no variable. -/
structure IsLiteral (t : Text) : Prop where
  ne_nil : t ≠ []
  chars : ∀ c ∈ t, isWordChar c
  head : t.head? ≠ some '@'

theorem IsLiteral.ofText {t : Text} (h : IsLiteral t) :
    PatternBlock.ofText t.toLowerAscii = .literal t.toLowerAscii := by
  unfold PatternBlock.ofText
  split
  · rename_i heq
    obtain ⟨c, rest, rfl, hc, -⟩ := map_eq_cons_iff.1 heq
    refine absurd ?_ h.head
    rcases toLower_cases c with hsame | ⟨hcapital, hsmall⟩
    · rw [head?_cons, ← hsame, hc]
    · rw [hc, show '@'.toNat = 64 from rfl] at hsmall
      omega
  · rfl

/-- The text can name a variable, and is in small letters. -/
structure IsLowerName (t : Text) : Prop where
  ne_nil : t ≠ []
  chars : ∀ c ∈ t, isAlphanumeric c || c == '_'
  lower : t.toLowerAscii = t

/-- A pattern of two words and a variable between them whose expression is in the parentheses. -/
def constrained (before r name after : Text) : Text :=
  before ++ " @(".toList ++ r ++ ")".toList ++ name ++ " ".toList ++ after

variable {before r name after : Text}

theorem tokens_scanFrom_run (offset : Nat) (quote : Option OpenQuote) {run : Text} (hne : run ≠ [])
    (hrun : ∀ c ∈ run, isWordChar c) (hrest : rest.head?.any isWordChar = false) :
    (scanFrom offset quote (run ++ rest)).tokens =
      ⟨offset, offset + run.byteSize, run, quote.isSome⟩ ::
        (scanFrom (offset + run.byteSize) quote rest).tokens :=
  tokens_scanFrom offset quote (piece?_eq_word_iff.2 ⟨rfl, hne, hrun, hrest⟩)

theorem tokens_scanFrom_space (offset : Nat) (quote : Option OpenQuote) (t : Text) :
    (scanFrom offset quote (' ' :: t)).tokens = (scanFrom (offset + 1) quote t).tokens :=
  tokens_scanFrom offset quote (piece?_eq_blank_iff.2 ⟨rfl, by decide⟩)

theorem head?_isWordChar_space (t : Text) : (' ' :: t : Text).head?.any isWordChar = false := by
  simpa using isWordChar_of_isBlank (by decide)

/-- The tokens up to the expression. -/
theorem tokens_constrained (hbefore : IsLiteral before) :
    tokens (constrained before r name after).toLowerAscii =
      ⟨0, before.byteSize, before.toLowerAscii, false⟩ ::
      ⟨before.byteSize + 1, before.byteSize + 2, ['@'], false⟩ ::
      ⟨before.byteSize + 2, before.byteSize + 3, ['('], false⟩ ::
      (scanFrom (before.byteSize + 3) none
        (r ++ ')' :: (name ++ ' ' :: after))).tokens.map small := by
  have htext : constrained before r name after =
      before ++ ' ' :: (['@'] ++ '(' :: (r ++ ')' :: (name ++ ' ' :: after))) := by
    simp [constrained]
  have hparen : piece? false ('(' :: (r ++ ')' :: (name ++ ' ' :: after))) =
      some (.symbol '(', r ++ ')' :: (name ++ ' ' :: after)) :=
    piece?_eq_symbol_iff.2 ⟨rfl, isWordChar_marks.2.1, by decide,
      .inr (splitComment?_of_ne (by decide) (by decide) _)⟩
  rw [tokens_toLowerAscii, htext, tokens, scan, tokens_scanFrom_run _ _ hbefore.ne_nil hbefore.chars
    (head?_isWordChar_space _), tokens_scanFrom_space, tokens_scanFrom_run _ _ (by simp)
    (all_eq_true.1 (by decide +kernel)) (by simpa using isWordChar_marks.2.1), Nat.zero_add]
  exact congrArg (fun run => (_ :: _ :: run).map small)
    (tokens_scanFrom (before.byteSize + 2) none hparen)

theorem slice_constrained (before r name after : Text) : (constrained before r name after).slice
    (before.byteSize + 3) (before.byteSize + 3 + r.byteSize) = .ok r := by
  have htext : constrained before r name after =
      before ++ " @(".toList ++ (r ++ (")".toList ++ name ++ " ".toList ++ after)) := by
    simp [constrained]
  have hlead : (before ++ " @(".toList).byteSize = before.byteSize + 3 := byteSize_append _ _
  rw [htext]
  exact slice_append hlead (by rw [hlead])

/-- A regular expression whose parentheses are balanced is the constraint of its variable, letter by
letter as it is written. -/
theorem compile_constrained {constraint : Constraint} (hbefore : IsLiteral before)
    (hafter : IsLiteral after) (hname : IsLowerName name) (hfree : Uncommented r)
    (hbalanced : isBalanced 0 false r) (hregex : Constraint.ofSource? r = some constraint) :
    compile (constrained before r name after) = .ok ⟨constrained before r name after,
      [.literal before.toLowerAscii, .placeholder name (some constraint),
        .literal after.toLowerAscii]⟩ ∧ constraint.source = r := by
  obtain ⟨flag, quote, hclosing⟩ := closing?_scanFrom hfree hbalanced none (before.byteSize + 3)
    (name ++ ' ' :: after)
  have hchars : ∀ c ∈ name, isWordChar c := fun c hc => by simp [isWordChar, hname.chars c hc]
  have hlast : ∀ offset, (scanFrom offset quote (after ++ [])).tokens = _ := fun offset =>
    tokens_scanFrom_run offset quote hafter.ne_nil hafter.chars rfl
  simp only [append_nil, tokens_scanFrom_nil] at hlast
  rw [tokens_scanFrom_run _ _ hname.ne_nil hchars (head?_isWordChar_space _),
    tokens_scanFrom_space, hlast, map_cons, map_cons, map_nil] at hclosing
  have hblocks := blocksOf_constrained (constrained before r name after)
    ⟨before.byteSize + 1, before.byteSize + 2, ['@'], false⟩
    ⟨before.byteSize + 2, before.byteSize + 3, ['('], false⟩ rfl rfl hclosing
    (by simp [isName, isIdentifier, small, hname.lower, hname.ne_nil, all_eq_true.2 hname.chars])
  have hone : ∀ token, blocksOf (constrained before r name after) [token] =
      .ok [.ofText token.text] := fun _ => by rw [blocksOf]
  simp only [constraintBetween, slice_constrained, hregex, ok_bind, hone, small, hname.lower,
    hafter.ofText] at hblocks
  refine ⟨?_, ?_⟩
  · rw [compile, tokens_constrained hbefore]
    simp only
    rw [blocksOf, if_neg (by simp), hblocks]
    simp only [pure, Except.pure, ok_bind, hbefore.ofText]
    rfl
  · simp only [Constraint.ofSource?, Option.bind_eq_bind, Option.bind_eq_some_iff] at hregex
    obtain ⟨whole, -, lead, -, hconstraint⟩ := hregex
    cases hconstraint
    rfl

/-- In small letters this expression would be none. Its last parenthesis but one is escaped. -/
theorem compile_constrained_group : ∃ constraint,
    Constraint.ofSource? "(?P<A>a|\\))".toList = some constraint ∧
    compile "Id @((?P<A>a|\\)))n Key".toList = .ok ⟨"Id @((?P<A>a|\\)))n Key".toList,
      [.literal "id".toList, .placeholder "n".toList (some constraint), .literal "key".toList]⟩ ∧
    constraint.source = "(?P<A>a|\\))".toList := by
  have hregex : (Constraint.ofSource? "(?P<A>a|\\))".toList).isSome := by decide +kernel
  obtain ⟨constraint, hconstraint⟩ := Option.isSome_iff_exists.1 hregex
  exact ⟨constraint, hconstraint, @compile_constrained "Id".toList _ "n".toList "Key".toList _
    ⟨by decide, all_eq_true.1 (by decide +kernel), by decide⟩
    ⟨by decide, all_eq_true.1 (by decide +kernel), by decide⟩
    ⟨by decide, all_eq_true.1 (by decide +kernel), by decide⟩ (by decide) (by decide) hconstraint⟩

end Pattern

end SqlScript
