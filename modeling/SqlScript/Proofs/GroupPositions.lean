import SqlScript.Proofs.Arithmetic
import SqlScript.Proofs.PositionRow
import SqlScript.Proofs.SelectPhrase

/-!
# Grouping by position

A select statement over arithmetic expressions with aliases, grouped by some of its expressions.
Each of these is replaced by the position of the first select expression that has the same tokens,
counted from one (`Expr.position`); a column of a table stays. Nothing else is changed
(`prepare_groupText`).
-/

namespace SqlScript

open List Option Layout Query.Expr Layout.Phrase Layout.Row BigQuery.Position BigQuery.CommonTable
  Text

namespace Query

open BigQuery
open Layout (Space Phrase Row Item Clauses Listing Cell isSmallWord groupedBlocks
  blocks_groupByPattern blocks_nestedGroupByPattern isSmallWord_by isSmallWord_from
  isSmallWord_group isSmallWord_select isPlainSymbol_semicolon)

variable {σ : Type}

/-- A number as it is written. -/
def Number.ofNat (n : Nat) : Number where
  text := (toString n).toList
  ne_nil := (digits_toString n).1
  digits := all_eq_true.2 (digits_toString n).2

/-- Whether the expression is a column of a table. -/
def Expr.isColumn : Expr → Bool
  | .column .. => true
  | _ => false

/-- What an expression of a `group by` list becomes : the position of the first select expression
with its tokens, unless it is a column of a table. -/
def Expr.position (items : List (Expr × Name)) (e : Expr) : Expr :=
  if e.isColumn then e
  else .number (.ofNat (items.findIdx (fun item => item.1.tokens == e.tokens) + 1))

/-- The text of a grouped select statement. -/
def groupText (items : List (Expr × Name)) (table : Name) (groups : List Expr) : Text :=
  "select ".toList ++
    CommaList.join (items.map fun item => item.1.text ++ " as ".toList ++ item.2.text) ++
    " from ".toList ++ table.text ++ " group by ".toList ++
    CommaList.join (groups.map text) ++ [';']

/-! ## The statement as a phrase -/

/-- An expression with its alias. -/
def itemPhrase (item : Expr × Name) : Phrase σ :=
  .aliased item.1.phrase item.2.phrase

/-- What stands behind the table up to the `group by` list. -/
def groupedBy (table : Name) (list : Phrase σ) : Phrase σ :=
  table.phrase.link .one ((word "group".toList isSmallWord_group).link .one
    ((word "by".toList isSmallWord_by).link .one
      (list.link .none (.symbol ';' isPlainSymbol_semicolon))))

/-- The whole statement. -/
def groupPhrase (item : Expr × Name) (items : List (Expr × Name)) (table : Name) (group : Expr)
    (groups : List Expr) : Phrase σ :=
  .selectFrom (.listed (itemPhrase item) (items.map itemPhrase))
    (groupedBy table (.listed group.phrase (groups.map phrase)))

theorem operand_itemPhrase (item : Expr × Name) : (itemPhrase item : Phrase σ).Operand := by
  have hoperand : (item.1.phrase : Phrase σ).Operand := item.1.operand_phrase
  exact operand_aliased hoperand.legible hoperand.plain hoperand.opens
    (operand_word _ item.2.isSmallWord_text)

theorem element_itemPhrase (item : Expr × Name) : (itemPhrase item : Phrase σ).Element :=
  (item.1.element_phrase.link .one (element_word _ (by decide))).link .one
    (element_word _ item.2.isSmallWord_text)

theorem words_itemPhrase (item : Expr × Name) :
    (itemPhrase item : Phrase σ).words = item.1.tokens ++ ["as".toList, item.2.text] := by
  rw [itemPhrase, words_aliased, words_phrase, Name.words_phrase]

theorem exists_mem_map {α β : Type} {f : α → β} {a : α} {as : List α} {b : β}
    (h : b ∈ f a :: as.map f) : ∃ x ∈ a :: as, f x = b := by
  rwa [← map_cons, List.mem_map] at h

section Statement

variable (item : Expr × Name) (items : List (Expr × Name)) (table : Name) (group : Expr)
  (groups : List Expr)

theorem operand_items : (listed (itemPhrase item) (items.map itemPhrase) : Phrase σ).Operand := by
  refine operand_listed fun p hp => ?_
  obtain ⟨x, -, rfl⟩ := exists_mem_map hp
  exact operand_itemPhrase x

theorem operand_groups : (listed group.phrase (groups.map phrase) : Phrase σ).Operand := by
  refine operand_listed fun p hp => ?_
  obtain ⟨x, -, rfl⟩ := exists_mem_map hp
  exact x.operand_phrase

theorem closed_items (gap : Space) :
    Closed ((listed (itemPhrase item) (items.map itemPhrase) : Phrase σ).row gap) := by
  refine closed_row_listed (fun p hp => ?_) gap
  obtain ⟨x, -, rfl⟩ := exists_mem_map hp
  exact element_itemPhrase x

theorem closed_groups (gap : Space) :
    Closed ((listed group.phrase (groups.map phrase) : Phrase σ).row gap) := by
  refine closed_row_listed (fun p hp => ?_) gap
  obtain ⟨x, -, rfl⟩ := exists_mem_map hp
  exact x.element_phrase

theorem mem_words_items {t : Text}
    (h : t ∈ (listed (itemPhrase item) (items.map itemPhrase) : Phrase σ).words) :
    t = "as".toList ∨ IsToken t := by
  rcases mem_words_listed h with rfl | ⟨p, hp, hmem⟩
  · exact .inr (.symbol (by decide))
  · obtain ⟨x, -, rfl⟩ := exists_mem_map hp
    rw [words_itemPhrase, mem_append, mem_pair] at hmem
    rcases hmem with hmem | rfl | rfl
    · exact .inr (isToken_of_mem hmem)
    · exact .inl rfl
    · exact .inr (.name x.2)

theorem mem_words_groups {t : Text}
    (h : t ∈ (listed group.phrase (groups.map phrase) : Phrase σ).words) : IsToken t := by
  rcases mem_words_listed h with rfl | ⟨p, hp, hmem⟩
  · exact .symbol (by decide)
  · obtain ⟨x, -, rfl⟩ := exists_mem_map hp
    rw [words_phrase] at hmem
    exact isToken_of_mem hmem

theorem words_groupedBy (list : Phrase σ) : (groupedBy table list).words =
    [table.text, "group".toList, "by".toList] ++ list.words ++ [[';']] := by
  simp [groupedBy, Name.phrase]

theorem mem_words_groupPhrase {t : Text}
    (h : t ∈ (groupPhrase item items table group groups : Phrase σ).words) :
    t ∈ ["select", "from", "group", "by", "as", ";"].map String.toList ∨ IsToken t := by
  rw [groupPhrase, words_selectFrom, words_groupedBy, mem_cons, mem_append,
    mem_cons, mem_append, mem_append] at h
  rcases h with rfl | h | rfl | (h | h) | h
  · exact .inl (by decide)
  · exact (mem_words_items item items h).imp_left fun heq => by rw [heq]; decide
  · exact .inl (by decide)
  · simp only [mem_cons, not_mem_nil, or_false] at h
    rcases h with rfl | rfl | rfl
    · exact .inr (.name table)
    · exact .inl (by decide)
    · exact .inl (by decide)
  · exact .inr (mem_words_groups group groups h)
  · rw [mem_singleton.1 h]
    exact .inl (by decide)

theorem notMem_groupPhrase {word : Text} (hword : word ∈ keywords)
    (hne : word ∉ ["select", "from", "group", "by", "as", ";"].map String.toList) :
    word ∉ (groupPhrase item items table group groups : Phrase σ).words := fun hmem =>
  (mem_words_groupPhrase item items table group groups hmem).elim hne fun htoken =>
    htoken.notMem_keywords hword

theorem legible_groupedBy {list : Phrase σ} (h : list.Legible) :
    (groupedBy table list).Legible := by
  have hone : Space.one.text ≠ [] := cons_ne_nil _ _
  exact (legible_ofCell _).link ((legible_ofCell _).link
    ((legible_ofCell _).link (legible_semicolon h) (.inl hone)) (.inl hone))
    (.inl hone)

theorem plain_groupedBy {list : Phrase σ} (h : list.Plain) : (groupedBy table list).Plain :=
  (plain_word _ _).link .one ((plain_word _ _).link .one
    ((plain_word _ _).link .one (h.link .none (plain_symbol _ _))))

theorem legible_groupPhrase : (groupPhrase item items table group groups : Phrase σ).Legible :=
  legible_selectFrom (operand_items item items).legible
    (legible_groupedBy table (operand_groups group groups).legible)

theorem plain_groupPhrase : (groupPhrase item items table group groups : Phrase σ).Plain :=
  plain_selectFrom (operand_items item items).plain
    (plain_groupedBy table (operand_groups group groups).plain)

theorem text_groupedBy (s : σ) (list : Phrase σ) : (groupedBy table list).text s =
    table.text ++ " group by ".toList ++ list.text s ++ [';'] := by
  simp [groupedBy, Name.phrase, Space.one, Space.none]

theorem text_groupPhrase (s : σ) : (groupPhrase item items table group groups).text s =
    groupText (item :: items) table (group :: groups) := by
  have hitem : Phrase.text s ∘ itemPhrase =
      fun item : Expr × Name => item.1.text ++ " as ".toList ++ item.2.text := by
    funext item
    rw [Function.comp_apply, itemPhrase, Phrase.text_aliased, text_phrase, Name.phrase,
      Phrase.text_word]
  have hgroup : Phrase.text s ∘ Expr.phrase = Expr.text := funext (text_phrase s)
  rw [groupPhrase, Phrase.text_selectFrom, text_groupedBy, Phrase.text_listed, Phrase.text_listed,
    ← map_cons, ← map_cons, List.map_map, List.map_map, hitem, hgroup]
  unfold groupText
  simp only [append_assoc]

end Statement

/-! ## Finding the list -/

/-- What is taken of a grouped select statement. -/
theorem take?_grouped {first from_ group by_ : Cell σ} (hfirst : first.is "select".toList)
    (hfrom : from_.is "from".toList) (hgroup : group.is "group".toList)
    (hby : by_.is "by".toList) {list body : Row σ} (hlist : Closed list)
    (hlistFrom : weight "from".toList list = 0) (hbody : Closed body)
    (hbodyGroup : weight "group".toList body = 0) (close : Text) (later : Row σ) :
    take? (groupedBlocks close)
        (first :: (list ++ from_ :: (body ++ group :: by_ :: later))) =
      (stop? close 0 later).map fun stop =>
        ⟨first :: (list ++ from_ :: (body ++ group :: by_ :: (stop.segment ++ [stop.boundary]))),
          [("s".toList, list), ("b".toList, body), ("r".toList, stop.segment)], stop.later⟩ := by
  have hselect := stop?_append_cons hlist hlistFrom hfrom (body ++ group :: by_ :: later)
  have htable := stop?_append_cons hbody hbodyGroup hgroup (by_ :: later)
  rw [groupedBlocks, take?, if_pos hfirst, take?, hselect, bind_some, take?,
    htable, bind_some, take?, if_pos hby, take?]
  cases stop? close 0 later with
  | none => rfl
  | some stop => rfl

section Find

variable {list : Phrase σ} (groups : Phrase σ) (table : Name)

/-- A semicolon. -/
abbrev semicolon : Cell σ :=
  (Cell.ofSymbol ';' isPlainSymbol_semicolon).spaced Space.none.text Space.none.blank

/-- What stands before the `group by` list. -/
def groupFront (s : σ) (list : Phrase σ) (table : Name) : Text :=
  "select ".toList ++ list.text s ++ " from ".toList ++ table.text ++ " group by ".toList

/-- The cells before the `group by` list. -/
def groupCells (list : Phrase σ) (table : Name) : Row σ :=
  .spacedWord "select".toList isSmallWord_select :: (list.row .one ++
    .spacedWord "from".toList isSmallWord_from :: (table.phrase.row .one ++
      [.spacedWord "group".toList isSmallWord_group, .spacedWord "by".toList isSmallWord_by]))

theorem text_groupCells (s : σ) (list : Phrase σ) :
    text s (groupCells list table) = groupFront s list table := by
  unfold groupFront
  simp [groupCells, text_row, Name.phrase, Cell.spacedWord, Cell.spaced, Cell.ofWord,
    Layout.Lexeme.text, Space.one]

theorem row_grouped (list : Phrase σ) :
    ((selectFrom list (groupedBy table groups)).link .none
      (.symbol ';' (by decide))).row .none =
    groupCells list table ++ (groups.row .none ++ [semicolon, semicolon]) := by
  rw [row_link, row_selectFrom]
  simp only [groupCells, groupedBy, row_link, cons_append, append_assoc]
  rfl

/-- What the patterns of a grouped select statement take of the statement. -/
theorem take?_row_grouped (hclosed : Closed (list.row .one))
    (hfrom : "from".toList ∉ list.words) (close : Text) : take? (groupedBlocks close)
        (groupCells list table ++ (groups.row .none ++ [semicolon, semicolon])) =
      (stop? close 0 (groups.row .none ++ [semicolon, semicolon])).map fun stop =>
        ⟨groupCells list table ++ (stop.segment ++ [stop.boundary]),
          [("s".toList, list.row .one), ("b".toList, table.phrase.row .one),
            ("r".toList, stop.segment)], stop.later⟩ := by
  have htable : "group".toList ∉ (table.phrase : Phrase σ).words := by
    rw [Name.words_phrase, mem_singleton]
    exact fun heq => table.free (by rw [← heq]; decide)
  have helement : (table.phrase : Phrase σ).Element := element_word _ _
  have htake := take?_grouped (is_spacedWord (σ := σ) "select".toList (by decide))
    (is_spacedWord "from".toList (by decide))
    (is_spacedWord "group".toList (by decide))
    (is_spacedWord "by".toList (by decide)) hclosed
    (weight_row_eq_zero hfrom .one) (closes_of_isElement (helement.isElement_row .one))
    (weight_row_eq_zero htable .one) close (groups.row .none ++ [semicolon, semicolon])
  simpa [groupCells] using htake

/-- The `group by` list of the statement is found, and all of it is taken. -/
theorem exists_findClause_groupBy (s : σ)
    (hlegible : (selectFrom list (groupedBy table groups)).Legible)
    (hclosed : Closed (list.row .one)) (hfrom : "from".toList ∉ list.words)
    (hgroups : Closed (groups.row .none)) (hend : [';'] ∉ groups.words) : ∃ found,
      findClause ((selectFrom list (groupedBy table groups)).text s ++ [';'])
        groupByPattern 0 = .ok (some found) ∧
      capture found "s" = list.text s ∧
      (found.bindings.get? ['r']).getD [] = groups.text s ∧ found.startToken = 0 ∧
      found.stop = byteSize (groupFront s list table ++ groups.text s ++ [';']) := by
  have hstop : stop? [';'] 0 (groups.row .none ++ [semicolon, semicolon]) =
      some ⟨groups.row .none, semicolon, [semicolon]⟩ :=
    stop?_append_cons hgroups (weight_row_eq_zero hend .none) rfl _
  have htake := take?_row_grouped groups table hclosed hfrom [';']
  rw [hstop, map_some] at htake
  have hfind := findClause_text s (legible_semicolon hlegible)
    blocks_groupByPattern (by decide)
  have htext : ((selectFrom list (groupedBy table groups)).link .none
      (.symbol ';' (by decide))).text s =
        (selectFrom list (groupedBy table groups)).text s ++ [';'] := by
    simp [Space.none]
  rw [blocks_groupByPattern, row_grouped, locate?_of_take? htake (by simp [groupCells]),
    htext] at hfind
  refine ⟨_, hfind, ?_, ?_, rfl, ?_⟩
  · rw [capture_report]
    have hget : (Taken.mk (groupCells list table ++ (groups.row .none ++ [semicolon]))
        [("s".toList, list.row .one), ("b".toList, table.phrase.row .one),
          ("r".toList, groups.row .none)] [semicolon]).get "s".toList = list.row .one := rfl
    rw [hget, trimEnd_row, text_row_none]
  · rw [get?_report]
    exact text_row_none s groups
  · have hbody : body s (groupCells list table ++ groups.row .none ++ [semicolon]) =
        groupFront s list table ++ groups.text s ++ [';'] := by
      rw [body_concat, text_append, text_groupCells, text_row_none]
      rfl
    rw [← hbody, append_assoc]
    rfl

/-- The statement is no query in parentheses. -/
theorem locate?_nested (hclosed : Closed (list.row .one)) (hfrom : "from".toList ∉ list.words)
    (hselect : "select".toList ∉ list.words) (hgroups : Closed (groups.row .none))
    (hgroupsSelect : "select".toList ∉ groups.words) : locate? nestedGroupByPattern.blocks
      (((selectFrom list (groupedBy table groups)).link .none
        (.symbol ';' (by decide))).row .none) = none := by
  have hstop : stop? [')'] 0 (groups.row .none ++ [semicolon, semicolon]) = none := by
    rw [stop?_append hgroups (.inl rfl)]
    rfl
  have htake := take?_row_grouped groups table hclosed hfrom [')']
  rw [hstop, map_none] at htake
  have htable : "select".toList ∉ (table.phrase : Phrase σ).words := by
    rw [Name.words_phrase, mem_singleton]
    exact fun heq => table.free (by rw [← heq]; decide)
  have hnone : weight "select".toList (groupCells list table ++
      (groups.row .none ++ [semicolon, semicolon])).tail = 0 := by
    simp only [groupCells, cons_append, tail_cons, weight_append, weight_cons_is
      (is_spacedWord _ _), weight_row_eq_zero hselect,
      weight_row_eq_zero htable, weight_row_eq_zero hgroupsSelect]
    rfl
  rw [blocks_nestedGroupByPattern, row_grouped]
  exact locate?_eq_none_of_take? htake mem_cons_self hnone

end Find

/-! ## References -/

theorem Expr.map_text_tokens (e : Expr) : (SqlScript.tokens e.text).map Token.text = e.tokens := by
  have hoperand : (e.phrase : Phrase Unit).Operand := e.operand_phrase
  rw [← e.text_phrase (), map_text_tokens_text () hoperand.legible hoperand.plain, words_phrase]

theorem Expr.toLowerAscii_of_mem {e : Expr} {t : Text} (h : t ∈ e.tokens) : t.toLowerAscii = t := by
  rw [← e.words_phrase (σ := Unit)] at h
  exact toLowerAscii_of_mem_words h

theorem sameTokens_text (a b : Expr) : sameTokens a.text b.text = (a.tokens == b.tokens) := by
  have hsmall : ∀ e : Expr, (tokens e.text).map (·.text.toLowerAscii) = e.tokens := by
    intro e
    have hmap : (tokens e.text).map (·.text.toLowerAscii) =
        ((tokens e.text).map Token.text).map Text.toLowerAscii := by
      rw [List.map_map]
      rfl
    rw [hmap, e.map_text_tokens]
    exact (map_congr_left fun t ht => toLowerAscii_of_mem ht).trans (List.map_id _)
  rw [sameTokens, hsmall, hsmall]

theorem exists_of_isColumn {element : Element} (h : element.isColumn) :
    ∃ table dot column, tokens element.expression = [table, dot, column] ∧
      table.isIdentifier ∧ dot.text = ['.'] := by
  rw [Element.isColumn] at h
  split at h
  · rename_i table dot column htokens
    simp only [Bool.and_eq_true, beq_iff_eq] at h
    exact ⟨table, dot, column, htokens, h.1.1, h.1.2⟩
  · exact absurd h (by simp)

/-- Only a column of a table has a point between two other tokens. -/
theorem Expr.tokens_ne_column {e : Expr} (h : e.isColumn = false) {table column : Text}
    (htable : table ≠ ['(']) : e.tokens ≠ [table, ['.'], column] := by
  intro htokens
  cases e with
  | name n => simp [tokens] at htokens
  | number n => simp [tokens] at htokens
  | column _ _ _ _ => exact absurd h (by simp [isColumn])
  | call _ _ _ _ _ => simp [tokens] at htokens
  | callNone _ _ _ => simp [tokens] at htokens
  | group _ _ _ => exact htable (by simpa [tokens] using congrArg head? htokens.symm)
  | binary left _ op _ right =>
    have hlength := congrArg length htokens
    have hleft := length_pos_iff.2 left.tokens_ne_nil
    have hright := length_pos_iff.2 right.tokens_ne_nil
    simp only [tokens, length_append, length_cons, length_nil] at hlength
    obtain ⟨t, ht⟩ := length_eq_one_iff.1 (show left.tokens.length = 1 by omega)
    rw [tokens, ht] at htokens
    simp only [cons_append, nil_append, cons.injEq] at htokens
    have hop : op.char = '.' := htokens.2.1.1
    cases op <;> exact absurd hop (by decide)

/-- The columns of tables are told by their tokens. -/
theorem Expr.isColumn_text (e : Expr) (suffix : Text) :
    Element.isColumn ⟨e.text, suffix⟩ = e.isColumn := by
  have hmap := e.map_text_tokens
  cases hcolumn : e.isColumn with
  | false =>
    refine Bool.eq_false_iff.2 fun h => ?_
    obtain ⟨table, dot, column, htokens, hidentifier, hdot⟩ := exists_of_isColumn h
    refine tokens_ne_column hcolumn (fun hparen => ?_)
      (hmap.symm.trans (by rw [htokens, ← hdot]; rfl) : e.tokens = [table.text, ['.'], column.text])
    rw [Token.isIdentifier, hparen] at hidentifier
    exact absurd hidentifier (by decide)
  | true =>
    obtain ⟨table, before, after, column, rfl⟩ : ∃ table before after column,
        e = .column table before after column := by
      cases e <;> first | exact ⟨_, _, _, _, rfl⟩ | exact absurd hcolumn (by simp [isColumn])
    obtain ⟨first, rest, htokens, hfirst, hrest⟩ := map_eq_cons_iff.1 hmap
    obtain ⟨dot, rest, rfl, hdot, hrest⟩ := map_eq_cons_iff.1 hrest
    obtain ⟨last, rest, rfl, hlast, hnil⟩ := map_eq_cons_iff.1 hrest
    obtain rfl := map_eq_nil_iff.1 hnil
    rw [Element.isColumn, htokens]
    simp [Token.isIdentifier, hfirst, hdot, hlast, table.identifier, column.identifier]

/-- An expression with the tokens of a select expression becomes a position. -/
theorem reference_text {select : CommaList} {items : List (Expr × Name)}
    (hselect : select.elements.map (·.expression) = items.map (·.1.text)) {e : Expr}
    (h : ∃ item ∈ items, item.1.tokens = e.tokens) :
    reference select ⟨e.text, []⟩ = .ok (e.position items).text := by
  rw [reference, isColumn_text, position]
  cases e.isColumn with
  | true => rfl
  | false =>
    have hindex : (select.elements.map (·.expression)).findIdx? (sameTokens · e.text) =
        some (items.findIdx fun item => item.1.tokens == e.tokens) := by
      have htest : ((sameTokens · e.text) ∘ fun item : Expr × Name => item.1.text) =
          fun item => item.1.tokens == e.tokens := funext fun item => sameTokens_text item.1 e
      rw [hselect, findIdx?_map, htest, findIdx?_eq_some_iff_findIdx_eq]
      obtain ⟨item, hmem, heq⟩ := h
      exact ⟨findIdx_lt_length_of_exists ⟨item, hmem, by simp [heq]⟩, rfl⟩
    simp only [hindex]
    rfl

section Convert

variable (s : σ) (item : Expr × Name) (items : List (Expr × Name)) (table : Name) (group : Expr)
  (groups : List Expr)

theorem ofRow_select_itemPhrase (item : Expr × Name) :
    Item.ofRow .select ((itemPhrase item : Phrase σ).row .none) =
      ⟨item.1.phrase.row .none, item.2.phrase.row .none⟩ := by
  have hname : (item.2.phrase : Phrase σ).Element := element_word _ _
  refine ofRow_select_aliased
    (closes_of_isElement (item.1.element_phrase.isElement_row .one)) ?_
    (closes_of_isElement (hname.isElement_row .none)) ?_
  · rw [words_phrase]
    exact item.1.notMem_of_keyword (by decide)
  · rw [Name.words_phrase, mem_singleton]
    intro heq
    have hid := item.2.identifier
    rw [← heq] at hid
    exact absurd hid (by decide)

theorem notMem_items {word : Text} (hword : word ∈ keywords) (hne : word ≠ "as".toList) :
    word ∉ (listed (itemPhrase item) (items.map itemPhrase) : Phrase σ).words := fun hmem =>
  (mem_words_items item items hmem).elim hne fun htoken => htoken.notMem_keywords hword

theorem notMem_groups {word : Text} (hword : word ∈ keywords) :
    word ∉ (listed group.phrase (groups.map phrase) : Phrase σ).words := fun hmem =>
  (mem_words_groups group groups hmem).notMem_keywords hword

/-- The select list is read as its expressions and aliases. -/
theorem exists_parse_items : ∃ select, CommaList.parse .select
      ((Phrase.listed (itemPhrase item) (items.map itemPhrase) : Phrase σ).text s) = .ok select ∧
      select.elements.map (·.expression) = (item :: items).map (·.1.text) := by
  have hclauses := Clauses.ofRow_select (σ := σ)
    (Phrase.weight_row_eq_zero (notMem_items item items (by decide) (by decide)) .none)
    (Phrase.weight_row_eq_zero (notMem_items item items (by decide) (by decide)) .none)
  refine ⟨_, Phrase.parse_text_listed s hclauses (fun p hp => ?_) fun p hp => ?_, ?_⟩
  · obtain ⟨x, -, rfl⟩ := exists_mem_map hp
    exact operand_itemPhrase x
  · obtain ⟨x, -, rfl⟩ := exists_mem_map hp
    exact element_itemPhrase x
  · rw [List.map_map, ← map_cons, List.map_map]
    refine map_congr_left fun x _ => ?_
    rw [Function.comp_apply, Function.comp_apply, ofRow_select_itemPhrase]
    exact (Phrase.text_row_none s _).trans (text_phrase s x.1)

/-- The list becomes a list of positions. -/
theorem converted_groups {select : CommaList}
    (hselect : select.elements.map (·.expression) = (item :: items).map (·.1.text))
    (h : ∀ x ∈ group :: groups, ∃ i ∈ item :: items, i.1.tokens = x.tokens) :
    Position.converted .groupBy select
        ((Phrase.listed group.phrase (groups.map Expr.phrase) : Phrase σ).text s) =
      .ok (CommaList.join ((group :: groups).map fun x => (x.position (item :: items)).text)) := by
  have hclauses := Clauses.ofRow_groupBy (σ := σ)
    (Phrase.weight_row_eq_zero (notMem_groups group groups (by decide)) .none)
  have hparse := Phrase.parse_text_listed s hclauses
    (fun p hp => by obtain ⟨x, -, rfl⟩ := exists_mem_map hp; exact x.operand_phrase)
    (fun p hp => by obtain ⟨x, -, rfl⟩ := exists_mem_map hp; exact x.element_phrase)
  have hitems : ((group.phrase :: groups.map Expr.phrase).map fun q : Phrase σ =>
      (Item.ofRow .groupBy (q.row .none)).element .groupBy s).mapM
        (fun element => do return (← Position.reference select element) ++ element.suffix) =
      .ok ((group :: groups).map fun x => (x.position (item :: items)).text) := by
    rw [← map_cons, List.map_map, mapM_map]
    refine mapM_eq_ok fun x hx => ?_
    have helement : (Item.ofRow .groupBy ((x.phrase : Phrase σ).row .none)).element .groupBy s =
        ⟨x.text, []⟩ := by simp [Item.ofRow, Item.element, Phrase.text_row_none, text_phrase]
    rw [Function.comp_apply, Function.comp_apply, helement, reference_text hselect (h x hx),
      ok_bind, append_nil]
    rfl
  rw [Position.converted, hparse, ok_bind, hitems, ok_bind, nil_append, append_nil]
  rfl

theorem text_positions : (Phrase.listed (group.position (item :: items)).phrase
      ((groups.map (Expr.position (item :: items))).map Expr.phrase)).text s =
    CommaList.join ((group :: groups).map fun x => (x.position (item :: items)).text) := by
  have hmap : Phrase.text s ∘ Expr.phrase = Expr.text := funext (text_phrase s)
  rw [Phrase.text_listed, ← map_cons, List.map_map, hmap, ← map_cons, List.map_map]
  rfl

theorem text_selectFrom_groupedBy (list groups : Phrase σ) :
    (selectFrom list (groupedBy table groups)).text s ++ [';'] =
      groupFront s list table ++ (groups.text s ++ [';', ';']) := by
  rw [text_selectFrom, text_groupedBy]
  unfold groupFront
  simp only [append_assoc, singleton_append]

theorem select_notMem_groupedBy : "select".toList ∉
    (groupedBy table (.listed group.phrase (groups.map phrase)) : Phrase σ).words := by
  rw [words_groupedBy]
  simp only [mem_append, mem_cons, not_mem_nil, or_false]
  rintro (((hmem | hmem | hmem) | hmem) | hmem)
  · exact table.free (by rw [← hmem]; decide)
  · exact absurd hmem (by decide)
  · exact absurd hmem (by decide)
  · exact notMem_groups group groups (by decide) hmem
  · exact absurd hmem (by decide)

/-- Behind its first word the statement has no list that is still to be converted. -/
theorem findClause_behind_groupPhrase :
    findClause ((groupPhrase item items table group groups).text s ++ [';'])
      groupByPattern 1 = .ok none := by
  let list : Phrase σ := .listed (itemPhrase item) (items.map itemPhrase)
  let rest : Phrase σ :=
    (groupedBy table (.listed group.phrase (groups.map phrase))).link .none
      (.symbol ';' (by decide))
  have htext : (groupPhrase item items table group groups).text s ++ [';'] =
      (selectFrom list rest).text s := by
    rw [groupPhrase, text_selectFrom, text_selectFrom, text_link]
    simp [list, Space.none]
  have hrest : "select".toList ∉ rest.words := by
    rw [words_link, words_symbol, mem_append]
    rintro (hmem | hmem)
    · exact select_notMem_groupedBy table group groups hmem
    · exact absurd hmem (by decide)
  rw [htext]
  exact findClause_behind_select s
    (legible_selectFrom (operand_items item items).legible
      (legible_semicolon (legible_groupedBy table (operand_groups group groups).legible)))
    (notMem_items item items (by decide) (by decide)) hrest blocks_groupByPattern (by decide)

/-- The pass over the lists of statements replaces the whole list. -/
theorem convert_groupPhrase
    (h : ∀ x ∈ group :: groups, ∃ i ∈ item :: items, i.1.tokens = x.tokens) :
    Position.convert Position.groupByPattern .groupBy
        ((groupPhrase item items table group groups).text s) =
      .ok ((groupPhrase item items table (group.position (item :: items))
        (groups.map (Expr.position (item :: items)))).text s) := by
  obtain ⟨select, hselect, hexpressions⟩ := exists_parse_items s item items
  have hconverted := converted_groups s item items group groups hexpressions h
  obtain ⟨found, hfound, hcapture, hlist, htoken, hstop⟩ := exists_findClause_groupBy
    (Phrase.listed group.phrase (groups.map Expr.phrase)) table s
    (legible_groupPhrase item items table group groups) (closed_items item items .one)
    (notMem_items item items (by decide) (by decide)) (closed_groups group groups .none)
    fun hmem => (mem_words_groups group groups hmem).ne_singleton (by decide) (by decide) rfl
  have hone : Text.byteSize [';'] = 1 := rfl
  have hstart : found.stop - 1 -
      Text.byteSize ((Phrase.listed group.phrase (groups.map Expr.phrase)).text s) =
        (groupFront s (.listed (itemPhrase item) (items.map itemPhrase)) table).byteSize := by
    rw [hstop, Text.byteSize_append, Text.byteSize_append]
    omega
  have htrim : ((Phrase.listed group.phrase (groups.map Expr.phrase)).text s).trimEnd =
      (Phrase.listed group.phrase (groups.map Expr.phrase)).text s := by
    rw [← Phrase.text_row_none, ← Row.text_trimEnd, Phrase.trimEnd_row]
  have hfirst : Position.step Position.groupByPattern .groupBy
      ⟨(groupPhrase item items table group groups).text s ++ [';'], 0⟩ =
        .ok (some ⟨(groupPhrase item items table (group.position (item :: items))
          (groups.map (Expr.position (item :: items)))).text s ++ [';'], 1⟩) := by
    rw [Position.step, groupPhrase, hfound]
    simp only [ok_bind, hcapture, hselect, hlist, hconverted, hstart, htrim, htoken]
    rw [text_selectFrom_groupedBy, Text.replaceSlice_append rfl (by rw [Text.byteSize_append]),
      groupPhrase, text_selectFrom_groupedBy, text_positions]
    simp only [append_assoc]
    rfl
  have hsecond : Position.step Position.groupByPattern .groupBy
      ⟨(groupPhrase item items table (group.position (item :: items))
        (groups.map (Expr.position (item :: items)))).text s ++ [';'], 1⟩ = .ok none := by
    rw [Position.step, findClause_behind_groupPhrase]
    rfl
  rw [Position.convert, Progress.run_of_some hfirst hsecond (by simp), ok_bind,
    dropLast_concat]
  rfl

end Convert

/-! ## The whole rewriting -/

section Prepare

variable (s : σ) (item : Expr × Name) (items : List (Expr × Name)) (table : Name) (group : Expr)
  (groups : List Expr)

theorem lowercase_of_mem_groupPhrase {t : Text}
    (h : t ∈ (groupPhrase item items table group groups : Phrase σ).words) : t.lowercase = t := by
  have hkeywords : ["select", "from", "group", "by", "as", ";"].all
      (fun word => lowercase word.toList == word.toList) := by decide +kernel
  rcases mem_words_groupPhrase item items table group groups h with hmem | htoken
  · obtain ⟨word, hword, rfl⟩ := mem_map.1 hmem
    exact beq_iff_eq.1 (all_eq_true.1 hkeywords word hword)
  · exact htoken.lowercase_eq

/-- No common table stands in the statement. -/
theorem aliasColumns_groupPhrase : aliasColumns firstPattern "with ".toList
      ((groupPhrase item items table group groups).text s) =
        .ok ((groupPhrase item items table group groups).text s) ∧
    aliasColumns nextPattern ", ".toList
      ((groupPhrase item items table group groups).text s) =
        .ok ((groupPhrase item items table group groups).text s) := by
  have hlegible := legible_groupPhrase (σ := σ) item items table group groups
  have hwith : .literal "with".toList ∈ firstPattern.blocks := by decide
  have hselect : .literal "select".toList ∈ Layout.tableBlocks := by decide
  constructor
  · refine aliasColumns_text s hlegible blocks_firstPattern (by decide) ?_ _
    exact locate?_eq_none hwith (weight_row_eq_zero
      (notMem_groupPhrase item items table group groups (by decide) (by decide)) .none)
  · refine aliasColumns_text s hlegible blocks_nextPattern (by decide) ?_ _
    rw [blocks_nextPattern, groupPhrase, row_selectFrom]
    exact locate?_cons_eq_none hselect _ (weight_tail_selectFrom
      (notMem_items item items (by decide) (by decide))
      (select_notMem_groupedBy table group groups))

/-- The statement is neither a query in parentheses nor ordered. -/
theorem convert_groupPhrase_of_positions : convert nestedGroupByPattern .groupBy
      ((groupPhrase item items table group groups).text s) =
        .ok ((groupPhrase item items table group groups).text s) ∧ convert orderByPattern .orderBy
      ((groupPhrase item items table group groups).text s) =
        .ok ((groupPhrase item items table group groups).text s) := by
  have hlegible := legible_groupPhrase (σ := σ) item items table group groups
  have horder : .literal "order".toList ∈ orderByPattern.blocks := by decide
  constructor
  · refine convert_text s hlegible blocks_nestedGroupByPattern (by decide) ?_ _
    exact locate?_nested _ table (closed_items item items .one)
      (notMem_items item items (by decide) (by decide))
      (notMem_items item items (by decide) (by decide)) (closed_groups group groups .none)
      (notMem_groups group groups (by decide))
  · refine convert_text s hlegible rfl (by decide) (locate?_eq_none horder ?_) _
    refine weight_row_eq_zero ?_ .none
    rw [words_link, words_symbol, mem_append]
    rintro (hmem | hmem)
    · exact notMem_groupPhrase item items table group groups (by decide) (by decide) hmem
    · exact absurd hmem (by decide)

/-- The select list is printed as it was. -/
theorem replaceConcats_groupPhrase :
    Concat.replaceConcats ((groupPhrase item items table group groups).text s) =
      .ok ((groupPhrase item items table group groups).text s) := by
  have hlist : ∀ word ∈ keywords, word ≠ "as".toList →
      word ∉ (listed (itemPhrase item) (items.map itemPhrase) : Phrase σ).words :=
    fun word hword hne => notMem_items item items hword hne
  refine replaceConcats_selectFrom s itemPhrase itemPhrase item items
    (fun x _ => operand_itemPhrase x) (fun x _ => element_itemPhrase x) ?_
    (legible_groupedBy table (operand_groups group groups).legible)
    (select_notMem_groupedBy table group groups)
    (fun x _ => ⟨operand_itemPhrase x, ?_⟩) (hlist _ (by decide) (by decide))
  · simp only [map_cons, map_nil, forall_mem_cons]
    exact ⟨hlist _ (by decide) (by decide), hlist _ (by decide) (by decide),
      hlist _ (by decide) (by decide), hlist _ (by decide) (by decide), nofun⟩
  · have hoperand : (x.1.phrase : Phrase σ).Operand := x.1.operand_phrase
    rw [ofRow_select_itemPhrase]
    refine changedElement_aliased s hoperand.legible hoperand.plain ?_ ?_ _ <;>
      rw [words_phrase]
    · exact x.1.notMem_of_symbol (by decide) (by decide)
    · exact x.1.notMem_of_keyword (by decide)

end Prepare

/-- A statement grouped by some of its select expressions is grouped by their positions, and is
changed nowhere else. -/
theorem prepare_groupText (item : Expr × Name) (items : List (Expr × Name)) (table : Name)
    (group : Expr) (groups : List Expr)
    (h : ∀ x ∈ group :: groups, ∃ i ∈ item :: items,
      (tokens i.1.text).map Token.text = (tokens x.text).map Token.text) :
    prepare (groupText (item :: items) table (group :: groups)) =
      .ok (groupText (item :: items) table
        ((group :: groups).map (Expr.position (item :: items)))) := by
  have hsame : ∀ x ∈ group :: groups, ∃ i ∈ item :: items, i.1.tokens = x.tokens := by
    intro x hx
    obtain ⟨i, hi, heq⟩ := h x hx
    rw [Expr.map_text_tokens, Expr.map_text_tokens] at heq
    exact ⟨i, hi, heq⟩
  have hlegible := legible_groupPhrase (σ := Unit) item items table group groups
  have hplain := plain_groupPhrase (σ := Unit) item items table group groups
  obtain ⟨hfirst, hnext⟩ := aliasColumns_groupPhrase () item items table group groups
  obtain ⟨hnested, horder⟩ := convert_groupPhrase_of_positions () item items table
    (group.position (item :: items)) (groups.map (Expr.position (item :: items)))
  rw [List.map_cons, ← text_groupPhrase item items table group groups (),
    ← text_groupPhrase item items table _ _ (), prepare, Phrase.lowerCase_text () hlegible hplain
      fun t => lowercase_of_mem_groupPhrase item items table group groups, ok_bind, hfirst, ok_bind,
    hnext, ok_bind, convert_groupPhrase () item items table group groups hsame, ok_bind, hnested,
    ok_bind, horder, ok_bind, replaceConcats_groupPhrase, ok_bind]
  exact Phrase.unquoteNumbers_text () (legible_groupPhrase item items table _ _)
    (notMem_groupPhrase item items table _ _ (by decide) (by decide))

/-- The expression `a(b,1)` with blanks inside its parentheses. -/
def sampleCall (gap : Space) : Expr :=
  .call (.letter 'a' (by decide)) .none gap
    (.more (.name (.letter 'b' (by decide))) .none .none (.last (.number (.ofNat 1)))) gap

/-- The expressions of a select list, one of them twice and one a column of a table. -/
def sampleItems : List (Expr × Name) :=
  [(sampleCall .none, .letter 't' (by decide)), (sampleCall .none, .letter 'b' (by decide)),
    (.column (.letter 't' (by decide)) .none .none (.letter 'b' (by decide)),
      .letter 'a' (by decide))]

theorem prepare_groupText_sample :
    prepare ("select b as a, a(b,1) as t, a(b,1) as b, t.b as a from t ".toList ++
        "group by t.b, a( b,1 ), b;".toList) =
      .ok ("select b as a, a(b,1) as t, a(b,1) as b, t.b as a from t ".toList ++
        "group by t.b, 2, 1;".toList) := by
  have h := prepare_groupText (.name (.letter 'b' (by decide)), .letter 'a' (by decide))
    sampleItems (.letter 't' (by decide))
    (.column (.letter 't' (by decide)) .none .none (.letter 'b' (by decide)))
    [sampleCall .one, .name (.letter 'b' (by decide))] (by
      simp only [Expr.map_text_tokens]
      decide +kernel)
  exact h

end Query

end SqlScript
