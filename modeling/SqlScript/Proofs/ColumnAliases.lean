import SqlScript.Proofs.Uncommented

/-!
# What is kept of a column list

A common table expression is written anew with the columns of its list as aliases. In a text without
comments the tokens of the new expression are known (`CommonTable.keys_alias_step`) : the i-th
expression of the select list stands before `as` and the i-th column. The longer of the two lists is
cut to the length of the shorter one, so all expressions and all columns are kept exactly if there
are as many columns as expressions. Around the expression all tokens stay.
-/

namespace SqlScript

open BigQuery Layout Layout.Row Layout.Listing BigQuery.CommonTable

namespace BigQuery.CommonTable

/-- The patterns of common table expressions, with the words they start with. -/
def passes : List (Pattern × Text) :=
  [(firstPattern, "with".toList), (nextPattern, [','])]

/-- The tokens of an expression with a column as its alias. -/
def aliasKeys (pair : Element × Element) : List (Text × Bool) :=
  pair.1.expression.keys ++ ("as".toList, false) :: pair.2.expression.keys

/-- The tokens of a common table expression with aliases. -/
def tableKeys (word name : Text) (select : CommaList) (pairs : List (Element × Element))
    (rest : Text) : List (Text × Bool) :=
  (word, false) :: name.keys ++
    [("as".toList, false), (['('], false), ("select".toList, false)] ++ select.lead.keys ++
    [([','], false)].intercalate (pairs.map aliasKeys) ++ select.tail.keys ++
    ("from".toList, false) :: rest.keys ++ [([')'], false)]

end BigQuery.CommonTable

namespace Layout

variable {σ : Type}

/-! ## The tokens of the parts -/

theorem Part.keys_comma : (comma : Part σ).keys = [([','], false)] :=
  (List.append_nil _).trans (Lexeme.keys_of_isLiteral_eq_false rfl)

theorem Part.keys_join (parts : List (Part σ)) :
    (join parts).keys = [([','], false)].intercalate (parts.map Part.keys) := by
  induction parts with
  | nil => rfl
  | cons part parts ih =>
    cases parts with
    | nil => simp [join]
    | cons next parts =>
      rw [join, keys_append, keys_append, ih, keys_comma]
      simp

theorem keys_wordPart (t : Text) (h : isSmallWord t) :
    (wordPart t h : Part σ).keys = [(t, false)] :=
  (List.append_nil _).trans (Lexeme.keys_of_isLiteral_eq_false rfl)

theorem keys_asSelectPart : (asSelectPart : Part σ).keys =
    [("as".toList, false), (['('], false), ("select".toList, false)] := by
  have hword (cell : Cell σ) (h : cell.lexeme.isLiteral = false) (row : Row σ) :
      keys (cell :: row) = (cell.lexeme.text, false) :: keys row := by
    rw [keys_cons, Lexeme.keys_of_isLiteral_eq_false h]
    rfl
  rw [Part.keys, asSelectPart, hword _ rfl, hword _ rfl, hword _ rfl]
  rfl

theorem keys_aliasedPart {item column : Item σ} (s : σ) (hitem : Legible item.expression)
    (hcolumn : Legible column.expression) : (aliasedPart item column).keys =
      aliasKeys (item.element .select s, column.element .columns s) := by
  have hkeys : ∀ {row : Row σ}, Legible row → (text s row).keys = keys row :=
    fun h => map_key_tokens_text h s .nil
  have htexts : (item.element .select s).expression = text s item.expression ∧
    (column.element .columns s).expression = text s column.expression := ⟨rfl, rfl⟩
  rw [aliasKeys, htexts.1, htexts.2, hkeys hitem, hkeys hcolumn, aliasedPart,
    Part.keys_append, Part.keys_append, keys_wordPart]
  simp

/-- The tokens of a common table expression are told by its two lists. -/
theorem keys_tablePart (s : σ) (first : Cell σ) {a b c d : Row σ} {word : Text}
    (hfirst : first.lexeme.keys = [(word, false)]) (ha : Legible a)
    (hb : Legible b ∧ Closed b) (hc : Legible c ∧ Closed c)
    (hd : Legible d) : (tablePart first a b c d).keys ++ [([')'], false)] =
      tableKeys word (text s a) ((ofRow .select c).commaList .select s)
        (((ofRow .select c).commaList .select s).elements.zip
          ((ofRow .columns b).commaList .columns s).elements) (text s d) := by
  obtain ⟨hlead, htail, hitems⟩ := legible_ofRow .select hc.1 hc.2
  obtain ⟨-, -, hcolumns⟩ := legible_ofRow .columns hb.1 hb.2
  have hkeys : ∀ {row : Row σ}, Legible row → (text s row).keys = keys row :=
    fun h => map_key_tokens_text h s .nil
  have hpairs : ((ofRow .select c).items.zipWith aliasedPart
      (ofRow .columns b).items).map Part.keys =
      (((ofRow .select c).commaList .select s).elements.zip
        ((ofRow .columns b).commaList .columns s).elements).map
          aliasKeys := by
    rw [List.map_zipWith, commaList, commaList, List.zip_map, List.map_map,
      ← List.map_uncurry_zip_eq_zipWith]
    refine List.map_congr_left fun pair hpair => ?_
    obtain ⟨hitem, hcolumn⟩ := List.of_mem_zip hpair
    exact keys_aliasedPart s (hitems _ hitem).1 (hcolumns _ hcolumn).1
  have hleadKeys : ((ofRow .select c).lead.text s).keys = _ :=
    Part.keys_text s hlead.legible
  have htailKeys : ((ofRow .select c).tail.text s).keys = _ :=
    Part.keys_text s htail.legible
  have hspaced : keys [first.spaced [' '] blank_space] = [(word, false)] :=
    (List.append_nil _).trans hfirst
  rw [tableKeys, ← hpairs, hkeys ha, hkeys hd, commaList, hleadKeys, htailKeys]
  simp only [tablePart, Part.keys_append, Part.keys_ofRow, Part.keys_join, keys_asSelectPart,
    keys_wordPart, hspaced]
  simp

end Layout

namespace BigQuery.CommonTable

/-- Each pass is on common table expressions behind a word. -/
theorem passes_table {pattern : Pattern} {word : Text} (h : (pattern, word) ∈ passes) :
    pattern.blocks = .literal word :: tableBlocks ∧
    (word ≠ "as".toList ∧ word ≠ ['('] ∧ word ≠ "select".toList ∧ word ≠ "from".toList) ∧
    ∀ block ∈ pattern.blocks, block.Simple := by
  simp only [passes, List.mem_cons, List.not_mem_nil, or_false, Prod.mk.injEq] at h
  obtain ⟨rfl, rfl⟩ | ⟨rfl, rfl⟩ := h
  · exact ⟨blocks_firstPattern, by decide, by decide⟩
  · exact ⟨blocks_nextPattern, by decide, by decide⟩

theorem zip_kept_iff {α β : Type} (a : List α) (b : List β) :
    (a.zip b).map Prod.fst = a ∧ (a.zip b).map Prod.snd = b ↔ a.length = b.length := by
  constructor
  · rintro ⟨hfst, hsnd⟩
    rw [← hfst, List.length_map]
    conv_rhs => rw [← hsnd, List.length_map]
  · intro hlength
    exact ⟨List.map_fst_zip hlength.le, List.map_snd_zip hlength.ge⟩

/-- A step writes a common table expression anew : of its two lists as much is kept as the shorter
one is long, the i-th expression with the i-th column as its alias. -/
theorem keys_alias_step {sql : Text} {run : List Token} (hstrict : tokenize sql = .ok run)
    (hfree : isCommentFree (chunks sql)) {pattern : Pattern} {word : Text}
    (hpass : (pattern, word) ∈ passes) {state next : Progress}
    (hreach : Progress.Reaches (step pattern (word ++ [' '])) sql state)
    (hnext : step pattern (word ++ [' ']) state = .ok (some next)) :
    ∃ (found : PatternMatch) (columns select : CommaList) (front old new back : Text),
      findClause state.sql pattern state.first = .ok (some found) ∧
      CommaList.parse .columns (capture found "b") = .ok columns ∧
      CommaList.parse .select (capture found "c") = .ok select ∧
      aliased (word ++ [' ']) found = .ok new ∧
      found.start = front.byteSize ∧ found.stop = (front ++ old).byteSize ∧
      state.sql = front ++ old ++ back ∧ next.sql = front ++ new ++ back ∧
      next.sql.keys = front.keys ++ tableKeys word (capture found "a") select
        (select.elements.zip columns.elements) (capture found "d") ++ back.keys ∧
      ((select.elements.zip columns.elements).map Prod.fst = select.elements ∧
        (select.elements.zip columns.elements).map Prod.snd = columns.elements ↔
          select.elements.length = columns.elements.length) := by
  obtain ⟨hblocks, hword, hsimple⟩ := passes_table hpass
  obtain ⟨lead, row, hblank, hlegible, rfl⟩ :=
    exists_row (ends_of_tokenize hstrict) hfree
  have hlead : ∀ _ : Unit, Heading lead := fun _ => (filler_of_blank hblank).heading
  obtain ⟨pre, taken, hrow, htakes, hstate, hfind, hdone⟩ := exists_rewrite hblocks hsimple _
    (step_retable pattern (word ++ [' '])) hlead (fun pre taken hlegible _ htakes =>
      exists_retable hword _ pre taken hlegible (hblocks ▸ htakes)) hlegible (.inr inferInstance)
    hreach hnext
  obtain ⟨first, last, a, b, c, d, htable⟩ := exists_table (hblocks ▸ htakes)
  have hget : taken.get "a".toList = a ∧ taken.get "b".toList = b ∧ taken.get "c".toList = c ∧
      taken.get "d".toList = d := by
    simp only [Row.Taken.get, htable.captures]
    exact ⟨rfl, rfl, rfl, rfl⟩
  obtain ⟨ha, hb, hc, hd⟩ := htable.legible hrow
  obtain ⟨-, ⟨-, hclosedB⟩, ⟨-, hclosedC⟩, -⟩ := htable.parts
  have hcolumns := parse_text .columns () hb.trimEnd hclosedB.trimEnd
  have hselect := parse_text .select () hc.trimEnd hclosedC.trimEnd
  have hfirst : first.small.lexeme.keys = [(word, false)] := by
    rw [Lexeme.keys_of_isLiteral_eq_false, Cell.text_small_of_is htable.opens]
    exact (Lexeme.isLiteral_small _).trans (Cell.is_iff.1 htable.opens).1
  have hlast : (tablePart first.small (trimEnd a) (trimEnd b) (trimEnd c) (trimEnd d)).keys ++
      [([')'], false)] = Row.keys (tableRow first last a b c d) := by
    have hcloses := Lexeme.keys_of_isLiteral_eq_false (Cell.is_iff.1 htable.closes).1
    rw [htable.text_last] at hcloses
    exact (congrArg _ (hcloses.symm.trans (List.append_nil _).symm)).trans
      (Part.keys_append _ (.ofRow [last])).symm
  have htableKeys := keys_tablePart () first.small hfirst ha.trimEnd
    ⟨hb.trimEnd, hclosedB.trimEnd⟩ ⟨hc.trimEnd, hclosedC.trimEnd⟩ hd.trimEnd
  obtain ⟨back, hold, hnew, -, hkeys⟩ := (htable.rewrite hrow hword).exists_back
    (List.ne_nil_of_mem (List.mem_of_getLast? htable.ends.2)) () (hlead ()) hrow
  rw [hstate, htable.retable_eq hrow hword] at hdone
  have hsql := (Except.ok.inj hdone).symm
  refine ⟨_, _, _, lead ++ Row.text () pre, Row.body () taken.cells,
    Row.body () (tableRow first last a b c d), back, hfind,
    by rw [Row.Taken.capture_report, hget.2.1]; exact hcolumns,
    by rw [Row.Taken.capture_report, hget.2.2.1]; exact hselect, htable.aliased_eq hrow () lead,
    rfl, rfl, hstate.trans hold, hsql.trans hnew, ?_, zip_kept_iff _ _⟩
  rw [hsql, hkeys, Row.Taken.capture_report, Row.Taken.capture_report, hget.1, hget.2.2.2,
    ← htableKeys, hlast, List.append_assoc]

theorem keys_alias_step_distinct :
    isCommentFree (chunks "WITH c (x, y) AS (SELECT DISTINCT a, '/*' FROM t) SELECT 1".toList) ∧
      ∃ (found : PatternMatch) (columns select : CommaList) (front old new back : Text),
        "WITH c (x, y) AS (SELECT DISTINCT a, '/*' FROM t) SELECT 1".toList =
          front ++ old ++ back ∧
        "with c as (select distinct a as x, '/*' as y from t) SELECT 1".toList =
          front ++ new ++ back ∧
        Text.keys "with c as (select distinct a as x, '/*' as y from t) SELECT 1".toList =
          front.keys ++ tableKeys "with".toList (capture found "a") select
            (select.elements.zip columns.elements) (capture found "d") ++ back.keys := by
  have hfree : isCommentFree
      (chunks "WITH c (x, y) AS (SELECT DISTINCT a, '/*' FROM t) SELECT 1".toList) := by
    decide +kernel
  have hnext : step firstPattern ("with".toList ++ [' '])
      ⟨"WITH c (x, y) AS (SELECT DISTINCT a, '/*' FROM t) SELECT 1".toList, 0⟩ =
        .ok (some ⟨"with c as (select distinct a as x, '/*' as y from t) SELECT 1".toList, 1⟩) := by
    decide +kernel
  obtain ⟨found, columns, select, front, old, new, back, -, -, -, -, -, -, hold, hnew, hkeys, -⟩ :=
    keys_alias_step (tokenize_of_foldl (by decide +kernel)) hfree List.mem_cons_self .refl hnext
  exact ⟨hfree, found, columns, select, front, old, new, back, hold, hnew, hkeys⟩

/-- An expression behind the last column is lost. -/
theorem keys_alias_step_lost :
    step firstPattern "with ".toList ⟨"with c (x) as (select a, b from t) select 1".toList, 0⟩ =
        .ok (some ⟨"with c as (select a as x from t) select 1".toList, 1⟩) ∧
      (['b'], false) ∈ Text.keys "with c (x) as (select a, b from t) select 1".toList ∧
      (['b'], false) ∉ Text.keys "with c as (select a as x from t) select 1".toList := by
  decide +kernel

end BigQuery.CommonTable

end SqlScript
