import SqlScript.Proofs.ConcatRow
import SqlScript.Proofs.IdListRow
import SqlScript.Proofs.Phrase
import SqlScript.Proofs.SmallLetters

/-!
# Select statements as phrases

What the rewriting for BigQuery does to a single select statement `select list from rest`. A run
whose pattern is not found leaves the text as it is (`Progress.run_of_none`), and a pattern is not
found where one of its literals does not stand in the row (`Row.locate?_eq_none`), nor where a
literal behind its first one stands at most at the start of the row (`Row.locate?_cons_eq_none`).
The one run that takes the list apart and puts it together again is the one that replaces
concatenations of strings (`replaceConcats_selectFrom`) : it changes the elements one by one.
-/

namespace SqlScript

open List Layout.Row Layout.Item BigQuery.Concat Progress Text

namespace Progress

variable {step : Progress → Except Error (Option Progress)} {sql : Text}

/-- A run that finds nothing leaves the text as it is. -/
theorem run_of_none (h : step ⟨sql, 0⟩ = .ok none) : run step sql = .ok sql := by
  obtain ⟨limit, hlimit⟩ : ∃ limit, stepLimit sql = limit + 1 :=
    ⟨_, (Nat.succ_pred_eq_of_pos (Layout.lt_stepLimit (Nat.zero_le _))).symm⟩
  rw [run, hlimit, repeatSteps, h]
  rfl

/-- A run of a single step. -/
theorem run_of_some {next : Progress} (h : step ⟨sql, 0⟩ = .ok (some next))
    (hnext : step next = .ok none) (hlong : 1 ≤ sql.length) : run step sql = .ok next.sql := by
  obtain ⟨limit, hlimit⟩ : ∃ limit, stepLimit sql = limit + 2 :=
    ⟨stepLimit sql - 2, by have := Layout.lt_stepLimit hlong; omega⟩
  rw [run, hlimit, repeatSteps, h, ok_bind]
  simp only [repeatSteps, hnext, ok_bind]
  rfl

end Progress

namespace Search

/-! ## Patterns with a literal that is missing -/

/-- Where the blocks match, each of their literals is one of the tokens. -/
theorem exists_is_of_succeeds : ∀ {inPatternQuote : Bool} {blocks : List PatternBlock}
    {run : List Token}, succeeds inPatternQuote blocks run →
    ∀ text, .literal text ∈ blocks → ∃ token ∈ run, token.is text
  | _, [], _, _, text, hmem => by simp at hmem
  | _, .literal word :: blocks, [], h, _, _ => by simp [succeeds] at h
  | _, .literal word :: blocks, token :: later, h, text, hmem => by
    rw [succeeds, Bool.and_eq_true] at h
    rcases mem_cons.1 hmem with heq | hmem
    · obtain rfl : text = word := PatternBlock.literal.inj heq
      exact ⟨token, mem_cons_self, h.1⟩
    · obtain ⟨found, hfound, his⟩ := exists_is_of_succeeds h.2 text hmem
      exact ⟨found, mem_cons_of_mem token hfound, his⟩
  | inPatternQuote, .placeholder _ _ :: .literal word :: blocks, run, h, text, hmem => by
    rw [succeeds] at h
    cases hboundary : boundary? inPatternQuote word [] run with
    | none => simp [hboundary] at h
    | some found =>
      obtain ⟨boundary, later⟩ := found
      rw [hboundary] at h
      obtain ⟨segment, rfl, hword⟩ := exists_append_of_boundary? hboundary
      have hlater : .literal text = PatternBlock.literal word ∨ .literal text ∈ blocks := by
        simpa using hmem
      rcases hlater with heq | hmem
      · obtain rfl : text = word := PatternBlock.literal.inj heq
        exact ⟨boundary, by simp, hword⟩
      · obtain ⟨found, hfound, his⟩ := exists_is_of_succeeds h text hmem
        exact ⟨found, by simp [hfound], his⟩
  | _, [.placeholder _ _], _, h, _, _ => by simp [succeeds] at h
  | _, .placeholder _ _ :: .placeholder _ _ :: _, _, h, _, _ => by simp [succeeds] at h

theorem finds_eq_false {blocks : List PatternBlock} {run : List Token} {text : Text}
    (hmem : .literal text ∈ blocks) (h : ∀ token ∈ run, token.is text = false) :
    finds blocks run = false := by
  induction run with
  | nil => rfl
  | cons token later ih =>
    have hstart : startsAt blocks token later = false := by
      refine Bool.eq_false_iff.2 fun hstart => ?_
      rw [startsAt, Bool.and_eq_true] at hstart
      obtain ⟨found, hfound, his⟩ := exists_is_of_succeeds hstart.2 text hmem
      rw [h found hfound] at his
      exact Bool.noConfusion his
    rw [finds, hstart, ih fun token hmem => h token (mem_cons_of_mem _ hmem)]
    rfl

end Search

namespace Layout

variable {σ : Type}

namespace Row

/-- Where blocks take cells, each of their literals is one of the cells. -/
theorem Takes.weight_pos : ∀ {blocks : List PatternBlock} {cells : Row σ}
    {captures : List (Text × Row σ)}, Takes blocks cells captures →
      ∀ text, .literal text ∈ blocks → 0 < weight text cells
  | [], _, _, _, text, hmem => by simp at hmem
  | .literal word :: blocks, cells, captures, h, text, hmem => by
    obtain ⟨cell, rest, rfl, his, hrest⟩ := h
    rw [weight_cons_is his]
    rcases mem_cons.1 hmem with heq | hmem
    · obtain rfl : text = word := PatternBlock.literal.inj heq
      simp
    · have hpos := Takes.weight_pos hrest text hmem
      omega
  | .placeholder name _ :: .literal word :: blocks, cells, captures, h, text, hmem => by
    obtain ⟨segment, cell, rest, later, rfl, rfl, -, his, hrest⟩ := h
    rw [weight_append, weight_cons_is his]
    have hlater : .literal text = PatternBlock.literal word ∨ .literal text ∈ blocks := by
      simpa using hmem
    rcases hlater with heq | hmem
    · obtain rfl : text = word := PatternBlock.literal.inj heq
      simp
    · have hpos := Takes.weight_pos hrest text hmem
      omega
  | [.placeholder _ _], _, _, h, _, _ => h.elim
  | .placeholder _ _ :: .placeholder _ _ :: _, _, _, h, _, _ => h.elim

variable {blocks : List PatternBlock} {row : Row σ}

/-- A pattern is not found where one of its literals is missing. -/
theorem locate?_eq_none {text : Text} (hmem : .literal text ∈ blocks) (h : weight text row = 0) :
    locate? blocks row = none := by
  cases hlocate : locate? blocks row with
  | none => rfl
  | some found =>
    obtain ⟨hrow, htakes⟩ := eq_of_locate? hlocate
    have hpos := htakes.weight_pos text hmem
    rw [hrow, weight_append, weight_append] at h
    omega

theorem locate?_eq_none_of_take? (htake : take? blocks row = none) {text : Text}
    (hmem : .literal text ∈ blocks) (h : weight text row.tail = 0) : locate? blocks row = none := by
  cases row with
  | nil => rfl
  | cons cell row =>
    have hrest : locate? blocks row = none := locate?_eq_none hmem h
    rw [locate?, htake, hrest]
    rfl

/-- A pattern is not found where a literal behind its first block stands at most at the start. -/
theorem locate?_cons_eq_none {word : Text} {text : Text} (hmem : .literal text ∈ blocks)
    (cell : Cell σ) (h : weight text row = 0) :
    locate? (.literal word :: blocks) (cell :: row) = none := by
  cases htake : take? (.literal word :: blocks) (cell :: row) with
  | some taken =>
    obtain ⟨⟨first, rest, hcells, -, hrest⟩, hrow⟩ := takes_of_take? htake
    rw [hcells, cons_append, List.cons.injEq] at hrow
    have hpos := hrest.weight_pos text hmem
    rw [hrow.2, weight_append] at h
    omega
  | none => exact locate?_eq_none_of_take? htake (mem_cons_of_mem _ hmem) h

/-- What a closed row lacks is looked for behind it. -/
theorem stop?_append {text : Text} {depth : Nat} {row : Row σ} (hcloses : closes depth row)
    (htext : text = [')'] ∨ weight text row = 0) (later : Row σ) :
    stop? text depth (row ++ later) = (stop? text 0 later).map fun stop =>
      { stop with segment := row ++ stop.segment } := by
  induction row generalizing depth with
  | nil =>
    obtain rfl : depth = 0 := by simpa [closes] using hcloses
    rw [nil_append]
    cases stop? text 0 later <;> rfl
  | cons cell row ih =>
    simp only [closes, Bool.and_eq_true, Bool.not_eq_true'] at hcloses
    have hlater : text = [')'] ∨ weight text row = 0 := by
      refine htext.imp_right fun h => ?_
      rw [weight_cons] at h
      omega
    have hnot : (depth == 0 && cell.is text) = false := by
      rcases htext with rfl | hzero
      · cases hdepth : depth == 0 with
        | false => rfl
        | true =>
          have hclosing := hcloses.1
          rw [hdepth, Bool.true_and, Bool.or_eq_false_iff] at hclosing
          rw [Bool.true_and, hclosing.2]
      · have his := countP_eq_zero.1 hzero cell mem_cons_self
        rw [Bool.not_eq_true] at his
        rw [his, Bool.and_false]
    rw [cons_append, stop?, hnot, hcloses.1, ih hcloses.2 hlater]
    cases stop? text 0 later <;> rfl

/-- A closed row is taken up to the next cell that the variable stops at. -/
theorem stop?_append_cons {text : Text} (hclosed : Closed row) (hweight : weight text row = 0)
    {cell : Cell σ} (his : cell.is text) (later : Row σ) :
    stop? text 0 (row ++ cell :: later) = some ⟨row, cell, later⟩ := by
  rw [stop?_append hclosed (.inr hweight), stop?, his]
  simp

end Row

/-! ## Runs that change nothing -/

namespace Phrase

open BigQuery

variable {p : Phrase σ}

theorem findClause_text (s : σ) (hlegible : p.Legible) {pattern : Pattern} {word : Text}
    {blocks : List PatternBlock} (hblocks : pattern.blocks = .literal word :: blocks)
    (hsimple : ∀ block ∈ pattern.blocks, block.Simple) :
    findClause (p.text s) pattern 0 =
      .ok ((Row.locate? pattern.blocks (p.row .none)).map (Row.Found.report s [] 0)) := by
  have hrow : Row.Legible ([] ++ p.row .none) := hlegible.row .none
  have hfind := Row.findClause_text s hblocks hsimple .nil hrow
  rw [nil_append, nil_append, text_row_none] at hfind
  exact hfind

theorem lowerCase_text (s : σ) (hlegible : p.Legible) (hplain : p.Plain)
    (hlower : ∀ t ∈ p.words, t.lowercase = t) : lowerCase (p.text s) = .ok (p.text s) := by
  have hrow := Row.lowerCase_text s (hlegible.row .none) fun cell hcell => by
    have hmem : cell.lexeme ∈ p.lexemes := by
      rw [← map_lexeme_row p .none]
      exact mem_map_of_mem hcell
    obtain ⟨hliteral, hsmall⟩ := hplain _ hmem
    have hword := hlower _ (mem_map_of_mem hmem)
    rw [hsmall] at hword
    rw [Lexeme.lowerText_of_isLiteral_eq_false hliteral, hword]
  rwa [text_row_none] at hrow

theorem aliasColumns_text (s : σ) (hlegible : p.Legible) {pattern : Pattern} {word : Text}
    (hblocks : pattern.blocks = .literal word :: tableBlocks)
    (hsimple : ∀ block ∈ pattern.blocks, block.Simple)
    (hnone : locate? pattern.blocks (p.row .none) = none) (lead : Text) :
    CommonTable.aliasColumns pattern lead (p.text s) = .ok (p.text s) := by
  refine run_of_none ?_
  rw [CommonTable.step, findClause_text s hlegible hblocks hsimple, hnone]
  rfl

theorem legible_semicolon (h : p.Legible) : (p.link .none (symbol ';' (by decide))).Legible := by
  refine h.link (legible_ofCell _) (.inr fun lexeme hlexeme => ?_)
  obtain rfl : Lexeme.symbol _ = lexeme := Option.some.inj hlexeme
  exact Part.apart_of_inert (.inr (show inert ';' by decide))

theorem convert_text (s : σ) (hlegible : p.Legible) {pattern : Pattern} {word : Text}
    {blocks : List PatternBlock} (hblocks : pattern.blocks = .literal word :: blocks)
    (hsimple : ∀ block ∈ pattern.blocks, block.Simple)
    (hnone : locate? pattern.blocks ((p.link .none (symbol ';' (by decide))).row .none) = none)
    (kind : ListKind) : Position.convert pattern kind (p.text s) = .ok (p.text s) := by
  have hrun : run (Position.step pattern kind) (p.text s ++ [';']) =
      .ok (p.text s ++ [';']) := by
    refine run_of_none ?_
    have hfind := findClause_text s (legible_semicolon hlegible) hblocks hsimple
    rw [hnone] at hfind
    simp only [text_link, text_symbol, Space.none, nil_append] at hfind
    rw [Position.step, hfind]
    rfl
  rw [Position.convert, hrun, ok_bind, dropLast_concat]
  rfl

theorem unquoteNumbers_text (s : σ) (hlegible : p.Legible)
    (hin : "in".toList ∉ p.words) : IdList.unquoteNumbers (p.text s) = .ok (p.text s) := by
  have hnone : locate? IdList.inPattern.blocks (p.row .none) = none := by
    rw [blocks_inPattern]
    exact locate?_eq_none mem_cons_self (weight_row_eq_zero hin .none)
  refine run_of_none ?_
  rw [IdList.step, findClause_text s hlegible blocks_inPattern (by decide), hnone]
  rfl

/-! ## Concatenations of strings -/

theorem map_key_tokens_text (s : σ) (hlegible : p.Legible) (hplain : p.Plain) :
    (SqlScript.tokens (p.text s)).map Token.key = p.words.map fun t => (t, false) := by
  have hkeys := Row.map_key_tokens_text (hlegible.row .none) s .nil
  rwa [nil_append, text_row_none, hplain.keys_row] at hkeys

theorem map_text_tokens_text (s : σ) (hlegible : p.Legible) (hplain : p.Plain) :
    (SqlScript.tokens (p.text s)).map Token.text = p.words := by
  have hkeys := congrArg (List.map Prod.fst) (map_key_tokens_text s hlegible hplain)
  rw [map_map, map_map] at hkeys
  exact hkeys.trans (map_id _)

theorem toLowerAscii_of_mem_words {t : Text} (ht : t ∈ p.words) : t.toLowerAscii = t := by
  obtain ⟨lexeme, -, rfl⟩ := mem_map.1 ht
  exact toLowerAscii_toLowerAscii lexeme.text

theorem is_eq_false (s : σ) (hlegible : p.Legible) (hplain : p.Plain) {word : Text}
    (hsmall : word.toLowerAscii = word) (hword : word ∉ p.words) :
    ∀ token ∈ SqlScript.tokens (p.text s), token.is word = false := by
  intro token htoken
  have hmem : token.text ∈ p.words := by
    rw [← map_text_tokens_text s hlegible hplain]
    exact mem_map_of_mem htoken
  rw [Token.is, eqFolded, toLowerAscii_of_mem_words hmem, hsmall]
  exact beq_eq_false_iff_ne.2 fun heq => hword (heq ▸ hmem)

/-- Patterns of which each has a literal that is no token of the text are not found. -/
theorem findsAny_eq_false {t : Text} {patterns : List Pattern}
    (h : ∀ pattern ∈ patterns, (∀ block ∈ pattern.blocks, block.Unconstrained) ∧
      ∃ word, .literal word ∈ pattern.blocks ∧
        ∀ token ∈ SqlScript.tokens t, token.is word = false) : findsAny t patterns = .ok false := by
  induction patterns with
  | nil => rfl
  | cons pattern patterns ih =>
    rw [forall_mem_cons] at h
    obtain ⟨⟨hfree, word, hword, hmissing⟩, hlater⟩ := h
    obtain ⟨result, hresult, hsome⟩ := exists_findClause t hfree
    rw [Search.finds_eq_false hword] at hsome
    · rw [findsAny, hresult, ok_bind, hsome, ih hlater]
      rfl
    · intro token htoken
      rw [map_map] at htoken
      obtain ⟨found, hfound, rfl⟩ := mem_map.1 htoken
      exact hmissing found hfound

/-- Without quotes and casts an expression is no concatenation of strings. -/
theorem isStringConcat_text (s : σ) (hlegible : p.Legible) (hplain : p.Plain)
    (hquote : ['\''] ∉ p.words) (hcast : "cast".toList ∉ p.words) :
    isStringConcat (p.text s) = .ok false := by
  let marked : Phrase σ := (symbol '^' (by decide)).link .none p
  have hmarked : marked.text s = '^' :: p.text s := rfl
  have hlegible' : marked.Legible := (legible_ofCell _).link hlegible
    (.inr fun _ _ => Part.apart_of_inert (.inl (show inert '^' by decide)))
  have hplain' : marked.Plain := (plain_symbol _ _).link .none hplain
  have hwords : marked.words = ['^'] :: p.words := words_link _ _ _
  have hmissing : ∀ word : Text, word.toLowerAscii = word → word ≠ ['^'] → word ∉ p.words →
      ∀ token ∈ SqlScript.tokens ('^' :: p.text s), token.is word = false := by
    intro word hsmall hne hword
    rw [← hmarked]
    refine is_eq_false s hlegible' hplain' hsmall ?_
    rw [hwords, mem_cons, not_or]
    exact ⟨hne, hword⟩
  have hquotes := hmissing ['\''] rfl (by decide) hquote
  refine findsAny_eq_false ?_
  rw [stringPatterns]
  simp only [forall_mem_cons]
  refine ⟨⟨by decide, _, ?_, hquotes⟩, ⟨by decide, _, ?_, hmissing _ rfl (by decide) hcast⟩,
    ⟨by decide, _, ?_, hquotes⟩, ⟨by decide, _, ?_, hquotes⟩, ⟨by decide, _, ?_, hquotes⟩, nofun⟩
    <;> decide

/-! ## Aliases -/

/-- A phrase with an alias. -/
def aliased (p q : Phrase σ) : Phrase σ :=
  (p.link .one (word "as".toList isSmallWord_as)).link .one q

theorem text_aliased (s : σ) (p q : Phrase σ) :
    (aliased p q).text s = p.text s ++ " as ".toList ++ q.text s := by
  simp [aliased, Space.one]

theorem words_aliased (p q : Phrase σ) :
    (aliased p q).words = p.words ++ "as".toList :: q.words := by
  simp [aliased]

theorem operand_aliased {q : Phrase σ} (hlegible : p.Legible) (hplain : p.Plain)
    (hopens : ∀ lexeme ∈ p.lexemes.head?, ∀ c ∈ lexeme.text.head?, opening c)
    (hq : q.Operand) : (aliased p q).Operand where
  legible := (hlegible.link (legible_ofCell _) (.inl (cons_ne_nil _ _))).link hq.legible
    (.inl (cons_ne_nil _ _))
  plain := (hplain.link .one (plain_word _ _)).link .one hq.plain
  opens := by
    rw [aliased, head?_lexemes_link, head?_lexemes_link]
    exact hopens
  closes := hq.closes

theorem changedElement_item (s : σ) (hlegible : p.Legible) (hplain : p.Plain)
    (hquote : ['\''] ∉ p.words) (hcast : "cast".toList ∉ p.words) :
    changedElement ((Item.mk (p.row .none) []).element .select s) = .ok (p.text s) := by
  have helement : (Item.mk (p.row .none) []).element .select s = ⟨p.text s, []⟩ := by
    simp [Item.element]
  rw [helement, changedElement, isStringConcat_text s hlegible hplain hquote hcast]
  rfl

theorem changedElement_aliased (s : σ) (hlegible : p.Legible) (hplain : p.Plain)
    (hquote : ['\''] ∉ p.words) (hcast : "cast".toList ∉ p.words) (q : Phrase σ) :
    changedElement ((Item.mk (p.row .none) (q.row .none)).element .select s) =
      .ok ((aliased p q).text s) := by
  have helement : (Item.mk (p.row .none) (q.row .none)).element .select s =
      ⟨p.text s, q.text s⟩ := by simp [Item.element]
  have hsuffix : (q.text s).isEmpty = false := by
    rw [isEmpty_eq_false_iff, text]
    exact append_ne_nil_of_right_ne_nil _ q.last.lexeme.text_ne_nil
  rw [helement, changedElement, isStringConcat_text s hlegible hplain hquote hcast, text_aliased]
  simp [hsuffix, pure, Except.pure]

/-- What stands before and behind `as` are the expression and its alias. -/
theorem ofRow_select_aliased {q : Phrase σ} (hp : Closed (p.row .one))
    (has : "as".toList ∉ p.words) (hq : Closed (q.row .none)) (hend : ['$'] ∉ q.words) :
    ofRow .select ((aliased p q).row .none) = ⟨p.row .none, q.row .none⟩ := by
  let start : Cell σ := .ofSymbol '^' (by decide)
  let middle : Cell σ := .spacedWord "as".toList (by decide)
  let last : Cell σ := .ofSymbol '$' (by decide)
  have hwhole : whole ((aliased p q).row .none) =
      start :: (p.row .one ++ middle :: (q.row .none ++ [last])) := by
    rw [aliased, row_link, row_link, whole, append_assoc, append_assoc]
    rfl
  have hexpression : stop? "as".toList 0 (p.row .one ++ middle :: (q.row .none ++ [last])) =
      some ⟨p.row .one, middle, q.row .none ++ [last]⟩ :=
    stop?_append_cons hp (weight_row_eq_zero has .one) (is_spacedWord _ _) _
  have halias : stop? ['$'] 0 (q.row .none ++ [last]) = some ⟨q.row .none, last, []⟩ :=
    stop?_append_cons hq (weight_row_eq_zero hend .none) rfl _
  have htake : take? Element.aliasPattern.blocks (whole ((aliased p q).row .none)) =
      some ⟨start :: (p.row .one ++ middle :: (q.row .none ++ [last])),
        [("a".toList, p.row .one), ("b".toList, q.row .none)], []⟩ := by
    have hstart : start.is ['^'] := rfl
    rw [hwhole, blocks_aliasPattern, take?, if_pos hstart, take?]
    change Option.map _ ((stop? "as".toList 0 _).bind _) = _
    rw [hexpression, Option.bind_some, take?, halias]
    rfl
  have hitem : ofRow .select ((aliased p q).row .none) =
      ⟨trimEnd (p.row .one), trimEnd (q.row .none)⟩ := by
    rw [ofRow, ofAlias, locate?_of_take? htake (by simp [whole])]
    rfl
  rw [hitem, trimEnd_row, trimEnd_row]

/-- An element without `as` has its last token as alias or none. -/
theorem ofRow_select_of_notMem (hplain : p.Plain) (has : "as".toList ∉ p.words) :
    ofRow .select (p.row .none) =
      if endsInAlias (p.words.map fun t => (t, false)) then splitLast (p.row .none)
      else ⟨p.row .none, []⟩ := by
  have hpattern : .literal "as".toList ∈ Element.aliasPattern.blocks := by decide
  have hweight : weight "as".toList (whole (p.row .none)) = 0 := by
    rw [weight_whole, weight_row_eq_zero has]
    rfl
  rw [ofRow, ofAlias, locate?_eq_none hpattern hweight, ← hplain.keys_row .none]

theorem splitLast_row (p : Phrase σ) (gap : Space) (cell : Cell σ) :
    splitLast ((p.link gap (ofCell cell)).row .none) = ⟨p.row .none, (ofCell cell).row .none⟩ := by
  rw [row_link, row_ofCell, splitLast, dropLast_concat, getLast?_concat, trimEnd_row]
  rfl

end Phrase

/-! ## Lists -/

open BigQuery (ListKind CommaList)

theorem Row.weight_whole_eq_zero {text : Text} {row : Row σ} (h : weight text row = 0)
    (hstart : ['^'] ≠ text) (hend : ['$'] ≠ text) : weight text (whole row) = 0 := by
  rw [weight_whole, if_neg hstart, if_neg hend, h]

namespace Clauses

theorem cutTail_of_weight {pattern : Pattern} {text : Text}
    (hmem : .literal text ∈ pattern.blocks) (hstart : ['^'] ≠ text) (hend : ['$'] ≠ text)
    (tail : Row σ → Part σ) {row : Row σ} (h : weight text row = 0) :
    cutTail pattern tail row = ⟨∅, row, ∅⟩ := by
  rw [cutTail, locate?_eq_none hmem (weight_whole_eq_zero h hstart hend)]

theorem ofRow_select {row : Row σ} (hdistinct : weight "distinct".toList row = 0)
    (hinto : weight "into".toList row = 0) : ofRow .select row = ⟨∅, row, ∅⟩ := by
  have hdistinctPattern : .literal "distinct".toList ∈ CommaList.distinctPattern.blocks := by
    decide
  have hintoPattern : .literal "into".toList ∈ CommaList.intoPattern.blocks := by decide
  rw [ofRow, locate?_eq_none hdistinctPattern
    (weight_whole_eq_zero hdistinct (by decide) (by decide))]
  exact cutTail_of_weight hintoPattern (by decide) (by decide) _ hinto

theorem ofRow_groupBy {row : Row σ} (horder : weight "order".toList row = 0) :
    ofRow .groupBy row = ⟨∅, row, ∅⟩ := by
  have hpattern : .literal "order".toList ∈ CommaList.orderByPattern.blocks := by decide
  exact cutTail_of_weight hpattern (by decide) (by decide) _ horder

end Clauses

/-- A list without clauses around it has the phrases it was made of as elements. -/
theorem Listing.ofRow_listed {kind : ListKind} {p : Phrase σ} {ps : List (Phrase σ)}
    (hclauses : Clauses.ofRow kind ((Phrase.listed p ps).row .none) =
      ⟨∅, (Phrase.listed p ps).row .none, ∅⟩) (h : ∀ q ∈ p :: ps, q.Element) :
    Listing.ofRow kind ((Phrase.listed p ps).row .none) =
      ⟨∅, (p :: ps).map fun q => Item.ofRow kind (q.row .none), ∅⟩ := by
  have hitems : (splitCommas 0 ((Phrase.listed p ps).row .none)).map
      (fun segment => Item.ofRow kind (trimEnd segment)) =
        (p :: ps).map fun q => Item.ofRow kind (q.row .none) := by
    have hsplit := congrArg (List.map (Item.ofRow kind)) (Phrase.splitCommas_row_listed h .none)
    rw [map_map, map_map] at hsplit
    exact hsplit
  rw [Listing.ofRow, hclauses, hitems]

/-- The list of a text without clauses around it. -/
theorem Phrase.parse_text_listed (s : σ) {kind : ListKind} {p : Phrase σ} {ps : List (Phrase σ)}
    (hclauses : Clauses.ofRow kind ((Phrase.listed p ps).row .none) =
      ⟨∅, (Phrase.listed p ps).row .none, ∅⟩)
    (hoperand : ∀ q ∈ p :: ps, q.Operand) (helement : ∀ q ∈ p :: ps, q.Element) :
    CommaList.parse kind ((Phrase.listed p ps).text s) =
      .ok ⟨[], (p :: ps).map fun q => (ofRow kind (q.row .none)).element kind s, []⟩ := by
  have hparse := parse_text kind s ((Phrase.operand_listed hoperand).legible.row .none)
    (Phrase.closed_row_listed helement .none)
  rw [Phrase.text_row_none, Listing.ofRow_listed hclauses helement, Listing.commaList,
    map_map] at hparse
  exact hparse

/-! ## Select lists -/

namespace Phrase

open BigQuery

/-- A select statement, of which only the list is looked at. -/
def selectFrom (list rest : Phrase σ) : Phrase σ :=
  (word "select".toList isSmallWord_select).link .one
    (list.link .one ((word "from".toList isSmallWord_from).link .one rest))

theorem text_selectFrom (s : σ) (list rest : Phrase σ) : (selectFrom list rest).text s =
    "select ".toList ++ list.text s ++ " from ".toList ++ rest.text s := by
  simp [selectFrom, Space.one]

theorem words_selectFrom (list rest : Phrase σ) : (selectFrom list rest).words =
    "select".toList :: (list.words ++ "from".toList :: rest.words) := by
  simp [selectFrom]

theorem row_selectFrom (list rest : Phrase σ) (gap : Space) : (selectFrom list rest).row gap =
    .spacedWord "select".toList (by decide) ::
      (list.row .one ++ .spacedWord "from".toList (by decide) :: rest.row gap) := by
  simp only [selectFrom, row_link]
  rfl

variable {list rest : Phrase σ}

theorem legible_selectFrom (hlist : list.Legible) (hrest : rest.Legible) :
    (selectFrom list rest).Legible := by
  have hone : Space.one.text ≠ [] := cons_ne_nil _ _
  exact (legible_ofCell _).link (hlist.link ((legible_ofCell _).link hrest (.inl hone))
    (.inl hone)) (.inl hone)

theorem plain_selectFrom (hlist : list.Plain) (hrest : rest.Plain) : (selectFrom list rest).Plain :=
  (plain_word _ _).link .one (hlist.link .one ((plain_word _ _).link .one hrest))

/-- The list of a select statement is found, and all of it is taken. -/
theorem exists_findClause_selectFrom (s : σ) (hlist : list.Legible) (hrest : rest.Legible)
    (hclosed : Row.Closed (list.row .one)) (hfrom : "from".toList ∉ list.words) : ∃ found,
      findClause ((selectFrom list rest).text s) selectPattern 0 = .ok (some found) ∧
      capture found "a" = list.text s ∧ found.start = 0 ∧ found.startToken = 0 ∧
      found.stop = byteSize ("select ".toList ++ list.text s ++ " from".toList) := by
  let first : Cell σ := .spacedWord "select".toList (by decide)
  let last : Cell σ := .spacedWord "from".toList (by decide)
  let taken : Row.Taken σ :=
    ⟨first :: (list.row .one ++ [last]), [("a".toList, list.row .one)], rest.row .none⟩
  have hstop : Row.stop? "from".toList 0 (list.row .one ++ last :: rest.row .none) =
      some ⟨list.row .one, last, rest.row .none⟩ :=
    stop?_append_cons hclosed (weight_row_eq_zero hfrom .one) (is_spacedWord _ _) _
  have htake : Row.take? selectPattern.blocks
      (first :: (list.row .one ++ last :: rest.row .none)) = some taken := by
    rw [blocks_selectPattern, Row.take?, if_pos (is_spacedWord _ _), Row.take?, hstop]
    rfl
  refine ⟨Row.Found.report s [] 0 ⟨[], taken⟩, ?_, ?_, rfl, rfl, ?_⟩
  · rw [findClause_text s (legible_selectFrom hlist hrest) blocks_selectPattern (by decide),
      row_selectFrom, Row.locate?, htake]
    rfl
  · have hget : taken.get "a".toList = list.row .one := rfl
    rw [capture_report, hget, trimEnd_row, text_row_none]
  · have hbody : Row.body s (first :: list.row .one ++ [last]) =
        "select ".toList ++ list.text s ++ " from".toList := by
      rw [body_concat, text_cons, text_row]
      simp [first, last, Cell.spacedWord, Cell.spaced, Cell.ofWord, Lexeme.text, Space.one]
    exact congrArg byteSize hbody

/-- A list and what follows it hold no other select statement. -/
theorem weight_tail_selectFrom (hlist : "select".toList ∉ list.words)
    (hrest : "select".toList ∉ rest.words) : weight "select".toList
      (list.row .one ++ .spacedWord "from".toList (by decide) :: rest.row .none) = 0 := by
  rw [weight_append, weight_row_eq_zero hlist, weight_cons_is (is_spacedWord _ _),
    weight_row_eq_zero hrest]
  rfl

/-- A select statement is searched for another one behind its first word. -/
theorem findClause_behind_select (s : σ) (hlegible : (selectFrom list rest).Legible)
    (hlist : "select".toList ∉ list.words) (hrest : "select".toList ∉ rest.words)
    {pattern : Pattern} {blocks : List PatternBlock}
    (hblocks : pattern.blocks = .literal "select".toList :: blocks)
    (hsimple : ∀ block ∈ pattern.blocks, block.Simple) :
    findClause ((selectFrom list rest).text s) pattern 1 = .ok none := by
  let before : Row σ := [.spacedWord "select".toList (by decide)]
  let later : Row σ := list.row .one ++ .spacedWord "from".toList (by decide) :: rest.row .none
  have hrow : (selectFrom list rest).row .none = before ++ later := row_selectFrom list rest .none
  have hlater : Row.weight "select".toList later = 0 := weight_tail_selectFrom hlist hrest
  have hkeys : (Row.keys before).length = 1 := by
    rw [Row.keys_cons, Lexeme.keys_of_isLiteral_eq_false rfl]
    rfl
  have hfind := Row.findClause_text s hblocks hsimple .nil (hrow ▸ hlegible.row .none)
  rw [← hrow, nil_append, text_row_none, hkeys,
    locate?_eq_none (hblocks ▸ mem_cons_self) hlater] at hfind
  exact hfind

/-- Replacing concatenations of strings changes the elements of a select list one by one. -/
theorem replaceConcats_selectFrom (s : σ) {α : Type} (phrase changed : α → Phrase σ) (a : α)
    (as : List α) (hoperand : ∀ x ∈ a :: as, (phrase x).Operand)
    (helement : ∀ x ∈ a :: as, (phrase x).Element)
    (hfree : ∀ word ∈ ["select", "from", "distinct", "into"].map String.toList,
      word ∉ (listed (phrase a) (as.map phrase)).words) (hlegible : rest.Legible)
    (hrest : "select".toList ∉ rest.words) (hchanged : ∀ x ∈ a :: as, (changed x).Operand ∧
      changedElement ((ofRow .select ((phrase x).row .none)).element .select s) =
        .ok ((changed x).text s))
    (hselect : "select".toList ∉ (listed (changed a) (as.map changed)).words) :
    replaceConcats ((selectFrom (listed (phrase a) (as.map phrase)) rest).text s) =
      .ok ((selectFrom (listed (changed a) (as.map changed)) rest).text s) := by
  have hmap : ∀ {P : Phrase σ → Prop} {f : α → Phrase σ}, (∀ x ∈ a :: as, P (f x)) →
      ∀ p ∈ f a :: as.map f, P p := by
    intro P f h p hp
    rw [← map_cons] at hp
    obtain ⟨x, hx, rfl⟩ := mem_map.1 hp
    exact h x hx
  have hlist := operand_listed (hmap hoperand)
  have hlist' := operand_listed (hmap fun x hx => (hchanged x hx).1)
  simp only [map_cons, map_nil, forall_mem_cons] at hfree
  obtain ⟨hnoSelect, hnoFrom, hnoDistinct, hnoInto, -⟩ := hfree
  have hparse := parse_text_listed s (Clauses.ofRow_select
    (weight_row_eq_zero hnoDistinct .none) (weight_row_eq_zero hnoInto .none)) (hmap hoperand)
    (hmap helement)
  have hitems : (((phrase a :: as.map phrase).map fun q =>
      (ofRow .select (q.row .none)).element .select s).mapM changedElement) =
        .ok ((changed a :: as.map changed).map (text s)) := by
    rw [← map_cons, ← map_cons, map_map, map_map, mapM_map]
    exact mapM_eq_ok fun x hx => (hchanged x hx).2
  obtain ⟨found, hfound, hcapture, hstart, htoken, hstop⟩ := exists_findClause_selectFrom s
    hlist.legible hlegible (closed_row_listed (hmap helement) .one) hnoFrom
  have htext : (selectFrom (listed (phrase a) (as.map phrase)) rest).text s =
      [] ++ ("select ".toList ++ (listed (phrase a) (as.map phrase)).text s ++ " from".toList ++
        (' ' :: rest.text s)) := by
    rw [text_selectFrom]
    simp
  have hreplace : replaceSlice ((selectFrom (listed (phrase a) (as.map phrase)) rest).text s)
      found.start found.stop ("select ".toList ++ [] ++
        CommaList.join ((changed a :: as.map changed).map (text s)) ++ [] ++ " from".toList) =
      .ok ((selectFrom (listed (changed a) (as.map changed)) rest).text s) := by
    rw [htext, replaceSlice_append (by rw [hstart]; rfl) (by rw [hstop]; rfl),
      text_selectFrom, text_listed]
    simp
  have hfirst : step ⟨(selectFrom (listed (phrase a) (as.map phrase)) rest).text s, 0⟩ =
      .ok (some ⟨(selectFrom (listed (changed a) (as.map changed)) rest).text s, 1⟩) := by
    rw [step, hfound]
    simp only [ok_bind, hcapture, hparse, hitems, hreplace, htoken]
    rfl
  have hsecond : step ⟨(selectFrom (listed (changed a) (as.map changed)) rest).text s, 1⟩ =
      .ok none := by
    rw [step, findClause_behind_select s (legible_selectFrom hlist'.legible hlegible)
      hselect hrest blocks_selectPattern (by decide)]
    rfl
  exact run_of_some hfirst hsecond (by rw [htext]; simp)

end Phrase

end Layout

end SqlScript
