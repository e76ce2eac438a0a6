import SqlScript.Proofs.Arithmetic
import SqlScript.Proofs.SelectPhrase

/-!
# Select lists without aliases

An element of a select list whose last token is an identifier is taken to end in an alias without
`as`, unless a `.` or a `+` stands before it. So an expression that ends in a name behind one of the
other operators (`Expr.endsBare`) gets an `as` before that name. Nothing else happens to a select
statement over arithmetic expressions (`tokens_prepare_select`) : it keeps its tokens exactly if
none of its expressions ends so.
-/

namespace SqlScript

open List Layout.Phrase Query.Expr Token Layout.Item

namespace Query

open BigQuery
open Layout (Space Phrase Row Item Clauses Listing isSmallWord)

variable {σ : Type}

/-- Whether the expression ends in a name behind an operator other than `+`. -/
def Expr.endsBare : Expr → Bool
  | .binary _ _ op _ (.name _) => op != .plus
  | .binary _ _ _ _ right => right.endsBare
  | _ => false

/-- The texts of the tokens of an expression, with `as` before a name at its end that is taken for
an alias. -/
def Expr.aliasedTokens (e : Expr) : List Text :=
  if e.endsBare then e.tokens.dropLast ++ "as".toList :: e.tokens.getLast?.toList else e.tokens

/-- The text of a select statement. -/
def selectText (elements : List Expr) (table : Name) : Text :=
  "select ".toList ++ CommaList.join (elements.map Expr.text) ++ " from ".toList ++ table.text ++
    [';']

/-- The texts of the tokens of a select statement with the tokens of its elements given. -/
def selectTokens (elements : List (List Text)) (table : Name) : List Text :=
  "select".toList :: ([[',']].intercalate elements ++ ["from".toList, table.text, [';']])

theorem Expr.endsBare_binary (left : Expr) (before : Space) (op : Operator) (after : Space)
    {right : Expr} (h : ∀ n, right ≠ .name n) :
    (binary left before op after right).endsBare = right.endsBare := by
  cases right with
  | name n => exact absurd rfl (h n)
  | _ => rfl

/-! ## The last two tokens -/

/-- An expression that ends in a name behind an operator, cut before that name. -/
theorem Expr.exists_front : ∀ {e : Expr}, e.endsBare → ∃ (front : Phrase σ) (gap : Space)
    (n : Name), e.phrase = front.link gap n.phrase ∧ front.last.lexeme.text ∈ [['-'], ['*'], ['/']]
  | .binary left before op after (.name n), h => by
    have hop : op ≠ .plus := by simpa [endsBare] using h
    refine ⟨left.phrase.link before op.phrase, after, n, rfl, ?_⟩
    change [op.char] ∈ [['-'], ['*'], ['/']]
    cases op with
    | plus => exact absurd rfl hop
    | minus => decide
    | times => decide
    | divide => decide
  | .binary left before op after (.binary left' before' op' after' right'), h => by
    obtain ⟨front, gap, n, hphrase, hlast⟩ :=
      exists_front (e := .binary left' before' op' after' right') h
    refine ⟨(left.phrase.link before op.phrase).link after front, gap, n, ?_, hlast⟩
    rw [phrase, hphrase, link_assoc]

theorem endsInAlias_append (a : List (Text × Bool)) {b : List (Text × Bool)} (h : 2 ≤ b.length) :
    endsInAlias (a ++ b) = endsInAlias b := by
  match hb : b.reverse, h with
  | [], h => simp [reverse_eq_nil_iff.1 hb] at h
  | [last], h =>
    rw [← length_reverse, hb] at h
    simp at h
  | last :: before :: rest, _ =>
    rw [endsInAlias, endsInAlias, reverse_append, hb]
    rfl

theorem endsInAlias_concat (keys : List (Text × Bool)) {last : Text × Bool}
    (h : ∀ before, Element.isBareAlias before (ofKey last) = false) :
    endsInAlias (keys ++ [last]) = false := by
  rw [endsInAlias, reverse_append, reverse_singleton, singleton_append]
  cases keys.reverse with
  | nil => rfl
  | cons before rest => exact h _

theorem isBareAlias_closing (before : Token) :
    Element.isBareAlias before (ofKey ([')'], false)) = false := by
  have hparen : (ofKey ([')'], false)).isIdentifier = false := by decide
  rw [Element.isBareAlias, hparen]
  rfl

theorem isBareAlias_number (before : Token) (n : Number) :
    Element.isBareAlias before (ofKey (n.text, false)) = false := by
  obtain ⟨c, rest, hcons⟩ := exists_cons_of_ne_nil n.ne_nil
  have hdigit := all_eq_true.1 n.digits c (by rw [hcons]; exact mem_cons_self)
  simp [Element.isBareAlias, ofKey, hcons, hdigit]

theorem Expr.length_tokens (e : Expr) :
    2 ≤ e.tokens.length ∨ (∃ n, e = .name n) ∨ ∃ n, e = .number n := by
  cases e with
  | name n => exact .inr (.inl ⟨n, rfl⟩)
  | number n => exact .inr (.inr ⟨n, rfl⟩)
  | binary left before op after right =>
    have hleft := length_pos_iff.2 left.tokens_ne_nil
    simp only [tokens, length_append, length_singleton]
    omega
  | column | call | callNone | group => simp [tokens]

/-- An expression that ends in no name behind an operator other than `+` has no alias. -/
theorem Expr.endsInAlias_eq_false : ∀ {e : Expr}, e.endsBare = false →
    endsInAlias (e.tokens.map fun t => (t, false)) = false
  | .name n, _ => rfl
  | .number n, _ => rfl
  | .column .., _ => by
    simp [tokens, endsInAlias, Element.isBareAlias, ofKey]
  | .call n before inside args after, _ => by
    rw [tokens, map_append]
    exact endsInAlias_concat _ isBareAlias_closing
  | .callNone n before inside, _ => endsInAlias_concat [(n.text, false), (['('], false)]
      isBareAlias_closing
  | .group inside e after, _ => by
    rw [tokens, map_append]
    exact endsInAlias_concat _ isBareAlias_closing
  | .binary left before op after right, h => by
    rw [tokens]
    rcases right.length_tokens with hlong | ⟨n, rfl⟩ | ⟨n, rfl⟩
    · have hbare : right.endsBare = false := by
        rw [endsBare_binary] at h
        · exact h
        · rintro n rfl
          simp [tokens] at hlong
      rw [map_append, endsInAlias_append _ (by simpa using hlong)]
      exact endsInAlias_eq_false hbare
    · obtain rfl : op = .plus := by simpa [endsBare] using h
      rw [append_assoc, map_append, endsInAlias_append _ (by simp [tokens])]
      simp [tokens, endsInAlias, Element.isBareAlias, ofKey, Operator.char]
    · rw [map_append]
      exact endsInAlias_concat _ fun before => isBareAlias_number before n

/-! ## The element with its alias -/

theorem Name.isBareAlias_text (n : Name) {before : Text}
    (h : before ∈ [['-'], ['*'], ['/']]) :
    Element.isBareAlias (ofKey (before, false)) (ofKey (n.text, false)) := by
  have hidentifier : (ofKey (n.text, false)).isIdentifier := n.identifier
  have hend : (ofKey (n.text, false)).is "end".toList = false := by
    have hne : n.text ≠ "end".toList := fun heq => n.free (by rw [heq]; decide)
    rw [is, Text.eqFolded, ofKey, n.small]
    exact beq_eq_false_iff_ne.2 hne
  have hbefore : before ≠ ['.'] ∧ before ≠ ['+'] := by
    simp only [mem_cons, not_mem_nil, or_false] at h
    rcases h with rfl | rfl | rfl <;> decide
  have hstart : (ofKey (n.text, false)).text.head?.any Char.isDigit = false := n.start
  rw [Element.isBareAlias, hidentifier, hend, hstart]
  simp [ofKey, hbefore]

/-- What an expression of a select list becomes when it is printed again. -/
theorem Expr.exists_changed (e : Expr) : ∃ p : Phrase σ, p.Operand ∧ p.words = e.aliasedTokens ∧
    ∀ s, Concat.changedElement ((ofRow .select (e.phrase.row .none)).element .select s) =
      .ok (p.text s) := by
  have hoperand : (e.phrase : Phrase σ).Operand := e.operand_phrase
  have hwords : (e.phrase : Phrase σ).words = e.tokens := e.words_phrase
  have has : "as".toList ∉ (e.phrase : Phrase σ).words := by
    rw [hwords]
    exact e.notMem_of_keyword (by decide)
  rw [Layout.Phrase.ofRow_select_of_notMem hoperand.plain has, hwords]
  cases hbare : e.endsBare with
  | false =>
    refine ⟨e.phrase, hoperand, by rw [hwords, aliasedTokens, hbare]; rfl, fun s => ?_⟩
    rw [endsInAlias_eq_false hbare]
    refine changedElement_item s hoperand.legible hoperand.plain ?_ ?_ <;> rw [hwords]
    · exact e.notMem_of_symbol (by decide) (by decide)
    · exact e.notMem_of_keyword (by decide)
  | true =>
    obtain ⟨front, gap, n, hphrase, hlast⟩ := exists_front (σ := σ) hbare
    have hfront : front.words ++ [n.text] = e.tokens := by
      rw [← hwords, hphrase, words_link, n.words_phrase]
    have hmem : ∀ {t : Text}, t ∉ e.tokens → t ∉ front.words := fun ht hin =>
      ht (by rw [← hfront]; exact mem_append_left _ hin)
    have hlegible : front.Legible := (hphrase ▸ hoperand.legible).of_link
    have hplain : front.Plain := fun lexeme hlexeme =>
      hoperand.plain lexeme (by
        rw [hphrase, lexemes_link]
        exact mem_append_left _ hlexeme)
    have hends : endsInAlias (e.tokens.map fun t => (t, false)) := by
      have hsmall := (hplain front.last.lexeme (by simp [lexemes])).2
      have hkeys : e.tokens.map (fun t => (t, false)) =
          (front.init.map fun cell => (cell.lexeme.text.toLowerAscii, false)) ++
            [(front.last.lexeme.text, false), (n.text, false)] := by
        rw [← hfront]
        simp [words, lexemes, hsmall]
      rw [hkeys, endsInAlias_append _ (by simp)]
      exact n.isBareAlias_text hlast
    have hopens : ∀ lexeme ∈ front.lexemes.head?, ∀ c ∈ lexeme.text.head?,
        opening c := by
      rw [← head?_lexemes_link front gap n.phrase, ← hphrase]
      exact hoperand.opens
    refine ⟨aliased front n.phrase, operand_aliased hlegible hplain hopens
      (operand_word _ n.isSmallWord_text), ?_, fun s => ?_⟩
    · rw [words_aliased, aliasedTokens, hbare, if_pos rfl, ← hfront,
        dropLast_concat, getLast?_concat, n.words_phrase]
      rfl
    · rw [hends, if_pos rfl, hphrase]
      have hsplit := splitLast_row front gap (.ofWord n.text n.isSmallWord_text)
      rw [Name.phrase, word, hsplit]
      exact changedElement_aliased s hlegible hplain
        (hmem (e.notMem_of_symbol (by decide) (by decide)))
        (hmem (e.notMem_of_keyword (by decide))) _

/-! ## Counting tokens -/

theorem length_aliasedTokens (e : Expr) :
    e.aliasedTokens.length = e.tokens.length + if e.endsBare then 1 else 0 := by
  rw [aliasedTokens]
  split
  · have hne := e.tokens_ne_nil
    have hlast : e.tokens.getLast?.toList.length = 1 := by
      rw [getLast?_eq_some_getLast hne]
      rfl
    have hpos := length_pos_iff.2 hne
    rw [length_append, length_dropLast, length_cons, hlast]
    omega
  · rfl

theorem length_intercalate_aliased (es : List Expr) :
    ([[',']].intercalate (es.map Expr.aliasedTokens)).length =
      ([[',']].intercalate (es.map Expr.tokens)).length + es.countP Expr.endsBare := by
  induction es with
  | nil => rfl
  | cons e es ih =>
    rw [countP_cons]
    cases es with
    | nil => simp [length_aliasedTokens]
    | cons next es =>
      simp only [map_cons, intercalate_cons_cons, length_append, length_aliasedTokens] at ih ⊢
      omega

/-- A select statement keeps its tokens exactly if none of its expressions ends in a name that is
taken for an alias. -/
theorem selectTokens_aliased_iff (es : List Expr) (table : Name) :
    selectTokens (es.map Expr.aliasedTokens) table = selectTokens (es.map Expr.tokens) table ↔
      ∀ e ∈ es, e.endsBare = false := by
  constructor
  · intro heq
    have hlength := congrArg List.length heq
    simp only [selectTokens, length_cons, length_append, length_intercalate_aliased] at hlength
    have hnone : es.countP Expr.endsBare = 0 := by omega
    intro e he
    exact Bool.eq_false_iff.2 (countP_eq_zero.1 hnone e he)
  · intro hnone
    have hmap : es.map Expr.aliasedTokens = es.map Expr.tokens := by
      refine map_congr_left fun e he => ?_
      rw [Expr.aliasedTokens, hnone e he]
      rfl
    rw [hmap]

/-! ## The statement as a phrase -/

/-- The statement, with a phrase for each of its elements. -/
def selectPhrase (f : Expr → Phrase σ) (e : Expr) (es : List Expr) (table : Name) : Phrase σ :=
  .selectFrom (.listed (f e) (es.map f)) (table.phrase.link .none (.symbol ';' (by decide)))

section Statement

variable (f : Expr → Phrase σ) (e : Expr) (es : List Expr) (table : Name)

theorem text_selectPhrase (s : σ) : (selectPhrase Expr.phrase e es table).text s =
    selectText (e :: es) table := by
  have hmap : Phrase.text s ∘ Expr.phrase = Expr.text := funext (Expr.text_phrase s)
  have hrest : ((table.phrase : Phrase σ).link .none (.symbol ';' (by decide))).text s =
      table.text ++ [';'] := by simp [Name.phrase, Space.none]
  rw [selectPhrase, Phrase.text_selectFrom, Phrase.text_listed, ← map_cons, map_map, hmap,
    hrest, ← append_assoc]
  rfl

theorem words_selectPhrase : (selectPhrase f e es table).words =
    selectTokens ((e :: es).map fun x => (f x).words) table := by
  rw [selectPhrase, words_selectFrom, words_listed, ← map_cons, map_map,
    words_link, table.words_phrase, words_symbol]
  rfl

theorem mem_words_selectPhrase {t : Text} (h : t ∈ (selectPhrase f e es table).words) :
    t ∈ ["select".toList, [','], "from".toList, table.text, [';']] ∨ ∃ x, t ∈ (f x).words := by
  rw [selectPhrase, words_selectFrom, mem_cons, mem_append, mem_cons] at h
  rcases h with rfl | hlist | rfl | hrest
  · exact .inl (by simp)
  · rcases mem_words_listed hlist with rfl | ⟨p, hp, hmem⟩
    · exact .inl (by simp)
    · rw [← map_cons] at hp
      obtain ⟨x, -, rfl⟩ := mem_map.1 hp
      exact .inr ⟨x, hmem⟩
  · exact .inl (by simp)
  · have hmem : t = table.text ∨ t = [';'] := by simpa [Name.phrase] using hrest
    rcases hmem with rfl | rfl <;> exact .inl (by simp)

theorem notMem_selectPhrase {word : Text} (hword : word ∈ keywords)
    (hne : word ≠ "select".toList ∧ word ≠ "from".toList) (h : ∀ x, word ∉ (f x).words) :
    word ∉ (selectPhrase f e es table).words := by
  intro hmem
  rcases mem_words_selectPhrase f e es table hmem with hmem | ⟨x, hmem⟩
  · simp only [mem_cons, not_mem_nil, or_false] at hmem
    rcases hmem with rfl | rfl | rfl | rfl | rfl
    · exact hne.1 rfl
    · exact absurd hword (by decide)
    · exact hne.2 rfl
    · exact table.free hword
    · exact absurd hword (by decide)
  · exact h x hmem

theorem notMem_listed {word : Text} (hword : word ∈ keywords) (h : ∀ x, word ∉ (f x).words) :
    word ∉ (listed (f e) (es.map f)).words := by
  intro hmem
  rcases mem_words_listed hmem with rfl | ⟨p, hp, hmem⟩
  · exact absurd hword (by decide)
  · rw [← map_cons] at hp
    obtain ⟨x, -, rfl⟩ := mem_map.1 hp
    exact h x hmem

theorem plain_legible_selectPhrase (h : ∀ x, (f x).Operand) :
    (selectPhrase f e es table).Plain ∧ (selectPhrase f e es table).Legible := by
  have hlist : (listed (f e) (es.map f)).Operand := by
    refine operand_listed fun p hp => ?_
    rw [← map_cons] at hp
    obtain ⟨x, -, rfl⟩ := mem_map.1 hp
    exact h x
  have hname : (table.phrase : Phrase σ).Operand := operand_word _ _
  exact ⟨plain_selectFrom hlist.plain (hname.plain.link .none (plain_symbol _ _)),
    legible_selectFrom hlist.legible (legible_semicolon hname.legible)⟩

theorem lowercase_of_mem_selectPhrase {t : Text}
    (h : t ∈ (selectPhrase phrase e es table : Phrase σ).words) : t.lowercase = t := by
  rcases mem_words_selectPhrase _ e es table h with hmem | ⟨x, hmem⟩
  · simp only [mem_cons, not_mem_nil, or_false] at hmem
    rcases hmem with rfl | rfl | rfl | rfl | rfl
    · decide +kernel
    · decide +kernel
    · decide +kernel
    · exact table.lower
    · decide +kernel
  · rw [words_phrase] at hmem
    exact (isToken_of_mem hmem).lowercase_eq

end Statement

/-! ## The whole rewriting -/

theorem Expr.notMem_aliasedTokens (e : Expr) {word : Text} (hword : word ∈ keywords)
    (hne : word ≠ "as".toList) : word ∉ e.aliasedTokens := by
  intro hmem
  refine e.notMem_of_keyword hword ?_
  rw [aliasedTokens] at hmem
  split at hmem
  · rcases mem_append.1 hmem with hmem | hmem
    · exact (dropLast_sublist _).subset hmem
    · rcases mem_cons.1 hmem with heq | hmem
      · exact absurd heq hne
      · rw [Option.mem_toList] at hmem
        exact mem_of_getLast? hmem
  · exact hmem

/-- Only the printing of the select list changes the statement. -/
theorem prepare_selectPhrase (s : σ) {changed : Expr → Phrase σ}
    (hoperand : ∀ x, (changed x).Operand) (hwords : ∀ x, (changed x).words = x.aliasedTokens)
    (hchanged : ∀ x s, Concat.changedElement
      ((ofRow .select (x.phrase.row .none)).element .select s) = .ok ((changed x).text s))
    (e : Expr) (es : List Expr) (table : Name) :
    prepare ((selectPhrase phrase e es table).text s) =
      .ok ((selectPhrase changed e es table).text s) := by
  obtain ⟨hplain, hlegible⟩ :=
    plain_legible_selectPhrase (σ := σ) phrase e es table operand_phrase
  have hkeyword : ∀ word ∈ keywords, ∀ x : Expr, word ∉ (x.phrase : Phrase σ).words := by
    intro word hword x
    rw [words_phrase]
    exact x.notMem_of_keyword hword
  have hfree : ∀ word ∈ keywords, word ≠ "select".toList ∧ word ≠ "from".toList →
      word ∉ (selectPhrase phrase e es table : Phrase σ).words := fun word hword hne =>
    notMem_selectPhrase _ e es table hword hne (hkeyword word hword)
  have hchangedFree : ∀ word ∈ keywords, word ≠ "as".toList → ∀ x, word ∉ (changed x).words := by
    intro word hword hne x
    rw [hwords]
    exact x.notMem_aliasedTokens hword hne
  have halias : ∀ {pattern : Pattern} {word : Text}, .literal word ∈ pattern.blocks →
      word ∈ keywords → word ≠ "select".toList ∧ word ≠ "from".toList →
      Row.locate? pattern.blocks ((selectPhrase phrase e es table : Phrase σ).row .none) =
        none := fun hmem hword hne =>
    Row.locate?_eq_none hmem (weight_row_eq_zero (hfree _ hword hne) .none)
  have hwith : .literal "with".toList ∈ CommonTable.firstPattern.blocks := by decide
  have has : .literal "as".toList ∈ CommonTable.nextPattern.blocks := by decide
  have hconvert : ∀ {pattern : Pattern} {word : Text} {blocks : List PatternBlock}
      (kind : ListKind), pattern.blocks = .literal word :: blocks →
      (∀ block ∈ pattern.blocks, block.Simple) → .literal "group".toList ∈ pattern.blocks →
      Position.convert pattern kind ((selectPhrase phrase e es table).text s) =
        .ok ((selectPhrase phrase e es table).text s) := by
    intro pattern word blocks kind hblocks hsimple hgroup
    refine convert_text s hlegible hblocks hsimple (Row.locate?_eq_none hgroup ?_) kind
    refine weight_row_eq_zero ?_ .none
    rw [words_link, words_symbol, mem_append]
    rintro (hmem | hmem)
    · exact hfree _ (by decide) (by decide) hmem
    · exact absurd hmem (by decide)
  have hconcat : Concat.replaceConcats ((selectPhrase phrase e es table).text s) =
      .ok ((selectPhrase changed e es table).text s) := by
    have hname : (table.phrase : Phrase σ).Operand := operand_word _ _
    refine replaceConcats_selectFrom s phrase changed e es
      (fun x _ => x.operand_phrase) (fun x _ => x.element_phrase) ?_
      (legible_semicolon hname.legible) ?_ (fun x _ => ⟨hoperand x, hchanged x s⟩)
      (notMem_listed changed e es (by decide) (hchangedFree _ (by decide) (by decide)))
    · simp only [map_cons, map_nil, forall_mem_cons]
      have hlist : ∀ word ∈ keywords,
          word ∉ (listed e.phrase (es.map phrase) : Phrase σ).words :=
        fun word hword => notMem_listed _ e es hword (hkeyword word hword)
      exact ⟨hlist _ (by decide), hlist _ (by decide), hlist _ (by decide), hlist _ (by decide),
        nofun⟩
    · rw [words_link, words_symbol, mem_append]
      rintro (hmem | hmem)
      · rw [Name.words_phrase, mem_singleton] at hmem
        exact table.free (by rw [← hmem]; decide)
      · exact absurd hmem (by decide)
  rw [prepare, lowerCase_text s hlegible hplain
      fun t => lowercase_of_mem_selectPhrase e es table, ok_bind,
    aliasColumns_text s hlegible Layout.blocks_firstPattern (by decide)
      (halias hwith (by decide) (by decide)), ok_bind,
    aliasColumns_text s hlegible Layout.blocks_nextPattern (by decide)
      (halias has (by decide) (by decide)), ok_bind,
    hconvert .groupBy rfl (by decide) (by decide), ok_bind,
    hconvert .groupBy rfl (by decide) (by decide), ok_bind,
    hconvert .orderBy rfl (by decide) (by decide), ok_bind, hconcat, ok_bind]
  exact unquoteNumbers_text s (plain_legible_selectPhrase changed e es table hoperand).2
    (notMem_selectPhrase changed e es table (by decide) (by decide)
      (hchangedFree _ (by decide) (by decide)))

/-- A select statement over arithmetic expressions gets an `as` before each name at the end of an
expression that is taken for an alias, and is changed nowhere else. -/
theorem tokens_prepare_select (e : Expr) (es : List Expr) (table : Name) : ∃ output,
    prepare (selectText (e :: es) table) = .ok output ∧
      (tokens output).map Token.text =
        selectTokens ((e :: es).map Expr.aliasedTokens) table ∧
      ((tokens output).map Token.text = (tokens (selectText (e :: es) table)).map Token.text ↔
        ∀ x ∈ e :: es, x.endsBare = false) := by
  choose changed hchangedOperand hchangedWords hchanged using Expr.exists_changed (σ := Unit)
  have htext := text_selectPhrase e es table ()
  obtain ⟨hplain, hlegible⟩ :=
    plain_legible_selectPhrase (σ := Unit) Expr.phrase e es table Expr.operand_phrase
  obtain ⟨hplain', hlegible'⟩ := plain_legible_selectPhrase changed e es table hchangedOperand
  refine ⟨(selectPhrase changed e es table).text (), ?_, ?_, ?_⟩
  · rw [← htext]
    exact prepare_selectPhrase () hchangedOperand hchangedWords hchanged e es table
  · rw [Phrase.map_text_tokens_text () hlegible' hplain', words_selectPhrase]
    simp only [hchangedWords]
  · rw [← htext, Phrase.map_text_tokens_text () hlegible' hplain',
      Phrase.map_text_tokens_text () hlegible hplain, words_selectPhrase, words_selectPhrase]
    simp only [hchangedWords, Expr.words_phrase]
    exact selectTokens_aliased_iff (e :: es) table

/-- The second factor of a product is taken for an alias. -/
theorem prepare_product :
    selectText [.binary (.name (.letter 'a' (by decide))) .one .times .one
        (.name (.letter 'b' (by decide)))] (.letter 't' (by decide)) =
      "select a * b from t;".toList ∧
    (prepare "select a * b from t;".toList).toOption = some "select a * as b from t;".toList ∧
    (tokens "select a * as b from t;".toList).map Token.text ≠
      (tokens "select a * b from t;".toList).map Token.text := by
  refine ⟨?_, ?_, ?_⟩ <;> decide +kernel

end Query

end SqlScript
