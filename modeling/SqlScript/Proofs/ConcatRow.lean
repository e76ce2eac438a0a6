import SqlScript.BigQuery.Concat
import SqlScript.Proofs.CommonTableRow
import SqlScript.Proofs.KeySearch
import SqlScript.Proofs.Relisting

/-!
# Concatenations in rows

Whether an expression is a concatenation of strings is told by the keys of its tokens, and each two
operands of a sum between pluses become a call (`Layout.callCells`). A step takes away a plus, so
the sum ends as a row of calls (`Row.exists_concatExpression`), and the run over all select lists
ends with a row (`Row.exists_replaceConcats`).
-/

namespace SqlScript

open List Layout.Row BigQuery.Concat Layout.Cell Layout.Listing

namespace Layout

open BigQuery

variable {σ : Type}

/-! ## Concatenations by their keys -/

variable {row : Row σ}

theorem Row.findsAny_text (h : Legible row) (s : σ) {patterns : List Pattern}
    (hfree : ∀ pattern ∈ patterns, ∀ block ∈ pattern.blocks, block.Unconstrained) :
    findsAny (text s row) patterns = .ok (patterns.any fun pattern =>
      Search.finds pattern.blocks ((keys row).map Token.ofKey)) := by
  induction patterns with
  | nil => rfl
  | cons pattern patterns ih =>
    rw [forall_mem_cons] at hfree
    obtain ⟨found, hfound, hsome⟩ := exists_findClause_text h s hfree.1
    rw [findsAny, hfound, ok_bind, hsome, ih hfree.2, any_cons]
    cases Search.finds pattern.blocks ((keys row).map Token.ofKey) <;> rfl

/-- An expression is a concatenation at every index, or at none. -/
theorem Row.exists_isStringConcat (h : Legible row) :
    ∃ b, ∀ s, isStringConcat (text s row) = .ok b := by
  have hcaret : Legible (ofSymbol '^' (by decide) :: row) :=
    h.cons (show inert '^' by decide)
  exact ⟨_, fun s => findsAny_text hcaret s (by decide)⟩

/-! ## Sums between pluses -/

/-- There is one lexeme for a symbol. -/
theorem Cell.lexeme_eq_ofSymbol {cell : Cell σ} {c : Char} (hcell : cell.is [c])
    (h : isPlainSymbol c) : cell.lexeme = (ofSymbol c h : Cell σ).lexeme := by
  simp only [isPlainSymbol, Bool.and_eq_true, Bool.not_eq_true'] at h
  obtain ⟨hliteral, hsmall⟩ := is_iff.1 hcell
  have htext : cell.lexeme.text = [c] := by
    obtain ⟨d, htext, hd⟩ := map_eq_singleton_iff.1 hsmall
    rw [htext, (toLower_eq_iff h.1.1.1).1 hd]
  cases hlexeme : cell.lexeme with
  | word w =>
    rw [hlexeme] at htext
    have hchar := w.chars
    rw [show w.text = [c] from htext, all_cons, h.1.1.1] at hchar
    exact absurd hchar (by decide)
  | symbol s =>
    rw [hlexeme] at htext
    obtain ⟨d, _, _, _⟩ := s
    obtain rfl : d = c := (List.cons.inj htext).1
    rfl
  | literal l =>
    rw [hlexeme] at hliteral
    exact absurd hliteral (by simp [Lexeme.isLiteral])

/-- A plus with nothing behind it. -/
def plusCell : Cell σ :=
  .ofSymbol '+' (by decide)

theorem is_plusCell : (plusCell : Cell σ).is ['+'] :=
  rfl

/-- The row between two pluses. -/
def wrap (row : Row σ) : Row σ :=
  plusCell :: (row ++ [plusCell])

theorem text_wrap (s : σ) (row : Row σ) : text s (wrap row) = '+' :: text s row ++ ['+'] := by
  simp [wrap, plusCell, ofSymbol, Lexeme.text]

theorem legible_wrap (h : Legible row) : Legible (wrap row) := by
  have hend : Legible (row ++ [plusCell]) :=
    h.append_cons (isChain_singleton _) (show inert '+' by decide)
  exact hend.cons (show inert '+' by decide)

theorem weight_wrap (word : Text) (row : Row σ) :
    weight word (wrap row) = weight word row + 2 * if ['+'] = word then 1 else 0 := by
  rw [wrap, weight_cons_is is_plusCell, weight_append, weight_is is_plusCell]
  omega

theorem exists_wrap (hfirst : row.head? = some plusCell) (hlast : row.getLast? = some plusCell)
    (hlength : row.length ≠ 1) : ∃ inner, row = wrap inner := by
  obtain ⟨rest, rfl⟩ := head?_eq_some_iff.1 hfirst
  have hne : rest ≠ [] := by
    rintro rfl
    exact hlength rfl
  rw [getLast?_cons_of_ne_nil hne, getLast?_eq_some_iff] at hlast
  obtain ⟨inner, rfl⟩ := hlast
  exact ⟨inner, rfl⟩

/-- The call of two operands, behind a plus. -/
def callCells (a b : Row σ) : Row σ :=
  plusCell :: .ofWord "concat".toList isSmallWord_concat :: .ofSymbol '(' isPlainSymbol_open ::
    (a ++ (ofSymbol ',' isPlainSymbol_comma).spaced [' '] blank_space ::
      (b ++ [.ofSymbol ')' isPlainSymbol_close]))

theorem text_callCells (s : σ) (a b : Row σ) : text s (callCells a b) =
    "+concat(".toList ++ text s a ++ ", ".toList ++ text s b ++ [')'] := by
  simp [callCells, plusCell, ofSymbol, ofWord, spaced, Lexeme.text]

theorem legible_callCells {a b : Row σ} (ha : Legible a) (hb : Legible b) :
    Legible (callCells a b) := by
  have hclose : Legible (b ++ [ofSymbol ')' (by decide)]) :=
    hb.append_cons (isChain_singleton _) (show inert ')' by decide)
  have hcomma : Legible (a ++ (ofSymbol ',' (by decide)).spaced [' '] blank_space ::
      (b ++ [ofSymbol ')' (by decide)])) :=
    ha.append_cons (hclose.cons (show inert ',' by decide)) (show inert ',' by decide)
  have hcall : Legible (ofSymbol '(' (by decide) :: _) :=
    hcomma.cons (show inert '(' by decide)
  have hword : Legible ([ofWord "concat".toList (by decide)] ++ _) :=
    Legible.append_cons (isChain_singleton _) hcall (show inert '(' by decide)
  exact hword.cons (show inert '+' by decide)

theorem weight_callCells {word : Text} (hword : word ≠ "concat".toList ∧ word ≠ ['('] ∧
      word ≠ [','] ∧ word ≠ [')']) (a b : Row σ) : weight word (callCells a b) =
      (if ['+'] = word then 1 else 0) + weight word a + weight word b := by
  obtain ⟨hconcat, hopen, hcomma, hclose⟩ := hword
  have hcall : (ofWord "concat".toList (by decide) : Cell σ).is "concat".toList := rfl
  have hparen : (ofSymbol '(' (by decide) : Cell σ).is ['('] := rfl
  have hbetween : ((ofSymbol ',' (by decide)).spaced [' '] blank_space : Cell σ).is [','] =
    true := rfl
  have hend : (ofSymbol ')' (by decide) : Cell σ).is [')'] := rfl
  rw [callCells, weight_cons_is is_plusCell, weight_cons_is hcall, if_neg hconcat.symm,
    weight_cons_is hparen, if_neg hopen.symm, weight_append, weight_cons_is hbetween,
    if_neg hcomma.symm, weight_append, weight_is hend, if_neg hclose.symm]
  omega

theorem blocks_operandsPattern : operandsPattern.blocks = [.literal ['+'],
    .placeholder "a".toList none, .literal ['+'], .placeholder "b".toList none,
    .literal ['+']] := by
  decide

/-- The cells of a match of two operands can be replaced by the call. -/
theorem rewrite_callCells {cells a b : Row σ} {first mid last : Cell σ}
    (hcells : cells = first :: (a ++ mid :: (b ++ [last]))) (hfirst : first.is ['+'])
    (hmid : mid.is ['+']) (hlast : last.is ['+']) (hlegible : Legible cells) :
    Rewrite "select".toList cells (callCells (trimEnd a) (trimEnd b) ++ [last]) ∧
      weight ['+'] (callCells (trimEnd a) (trimEnd b) ++ [last]) < weight ['+'] cells := by
  have ha : Legible a := by
    refine hlegible.of_isInfix ⟨[first], mid :: (b ++ [last]), ?_⟩
    rw [hcells]
    rfl
  have hb : Legible b := by
    refine hlegible.of_isInfix ⟨first :: (a ++ [mid]), [last], ?_⟩
    rw [hcells]
    simp
  have hweight : ∀ word : Text, word ≠ "concat".toList ∧ word ≠ ['('] ∧ word ≠ [','] ∧
      word ≠ [')'] → weight word cells = (if ['+'] = word then 1 else 0) +
        weight word (callCells (trimEnd a) (trimEnd b) ++ [last]) := by
    intro word hword
    rw [hcells, weight_cons_is hfirst, weight_append, weight_cons_is hmid,
      weight_append, weight_append, weight_callCells hword, weight_trimEnd,
      weight_trimEnd]
    omega
  refine ⟨⟨?_, ?_, ?_, ?_, ?_⟩, ?_⟩
  · refine (legible_callCells ha.trimEnd hb.trimEnd).append_cons (isChain_singleton _) ?_
    rw [text_of_is hlast (by decide)]
    decide
  · rw [hcells, head?_cons, Option.map_some, lexeme_eq_ofSymbol hfirst (by decide)]
    rfl
  · rw [hcells, getLast?_concat]
    simp [getLast?_append, getLast?_cons]
  · rw [hweight _ (by decide)]
    exact Nat.le_add_left _ _
  · rw [hweight _ (by decide)]
    exact Nat.le_add_left _ _
  · rw [hweight ['+'] (by decide), if_pos rfl]
    omega

/-- A step over a row looks for two operands among its cells. -/
theorem findClause_operands (h : Legible row) (s : σ) :
    findClause (text s row) operandsPattern 0 =
      .ok ((locate? operandsPattern.blocks row).map (Found.report s [] 0)) :=
  findClause_text s blocks_operandsPattern (by decide) .nil (show Legible ([] ++ row) from h)

theorem joinStep_of_locate?_eq_none (h : Legible row) (s : σ)
    (hlocate : locate? operandsPattern.blocks row = none) : joinStep (text s row) = .ok none := by
  rw [joinStep, findClause_operands h s, hlocate]
  rfl

/-- The cells of a match become the call of its operands. -/
theorem joinStep_of_locate? (h : Row.Legible row) (s : σ) {found : Row.Found σ}
    (hlocate : Row.locate? operandsPattern.blocks row = some found) {a b : Row σ}
    {first mid last : Cell σ} (hcells : found.taken.cells = first :: (a ++ mid :: (b ++ [last])))
    (hfirst : first.is ['+']) (hmid : mid.is ['+']) (hlast : last.is ['+'])
    (hcaptures : found.taken.captures = [("a".toList, a), ("b".toList, b)]) :
    joinStep (Row.text s row) = .ok (some (Row.text s (found.front ++
      (callCells (Row.trimEnd a) (Row.trimEnd b) ++ [last] ++ found.taken.later)))) := by
  obtain ⟨hrow, -⟩ := eq_of_locate? hlocate
  obtain ⟨hrewrite, -⟩ := rewrite_callCells hcells hfirst hmid hlast
    (h.of_isInfix (hrow ▸ infix_append' _ _ _))
  have hget : found.taken.get "a".toList = a ∧ found.taken.get "b".toList = b := by
    simp only [Row.Taken.get, hcaptures]
    exact ⟨rfl, rfl⟩
  have hreport : found.report s [] 0 = found.taken.report s [] found.front :=
    report_eq s [] [] found
  have hbody : Row.body s (callCells (Row.trimEnd a) (Row.trimEnd b) ++ [last]) =
      "+concat(".toList ++ Row.text s (Row.trimEnd a) ++ ", ".toList ++
        Row.text s (Row.trimEnd b) ++ ")+".toList := by
    rw [body_concat, text_callCells, text_of_is hlast (by decide), append_assoc]
    rfl
  have hslice := hrewrite.replaceSlice_text (by rw [hcells]; simp) s [] found.front
    found.taken.later
  rw [hbody, ← hrow] at hslice
  rw [joinStep, findClause_operands h s, hlocate, Option.map_some, ok_bind, hreport]
  simp only [Row.Taken.capture_report, hget]
  exact congrArg (· >>= fun sql => pure (some sql)) hslice

/-- A step takes a plus away, and is the same at every index. -/
theorem exists_joinStep (h : Legible (wrap row)) :
    (∀ s, joinStep (text s (wrap row)) = .ok none) ∨
      ∃ next, Legible (wrap next) ∧ weight ['+'] next < weight ['+'] row ∧
        (∀ word, word = "select".toList ∨ word = ['$'] →
          weight word next ≤ weight word row) ∧
        ∀ s, joinStep (text s (wrap row)) = .ok (some (text s (wrap next))) := by
  cases hlocate : locate? operandsPattern.blocks (wrap row) with
  | none => exact .inl fun s => joinStep_of_locate?_eq_none h s hlocate
  | some found =>
    obtain ⟨hrow, htakes⟩ := eq_of_locate? hlocate
    rw [blocks_operandsPattern] at htakes
    obtain ⟨first, _, hcells, hfirst, a, mid, _, _, rfl, hcaptures, -, hmid, b, last, _, _, rfl,
      rfl, -, hlast, rfl, rfl⟩ := htakes
    obtain ⟨hrewrite, hless⟩ := rewrite_callCells hcells hfirst hmid hlast
      (h.of_isInfix (hrow ▸ infix_append' _ _ _))
    obtain ⟨next, hnext⟩ : ∃ next, found.front ++ (callCells (trimEnd a) (trimEnd b) ++
        [last] ++ found.taken.later) = wrap next := by
      refine exists_wrap ?_ ?_ ?_
      · cases hfront : found.front with
        | nil => rfl
        | cons cell front =>
          rw [hfront] at hrow
          exact congrArg List.head? hrow.symm
      · have hold := congrArg List.getLast? hrow
        rw [wrap, ← cons_append, getLast?_concat, hcells] at hold
        rw [hold]
        simp [getLast?_append, getLast?_cons]
      · simp only [callCells, length_append, length_cons]
        omega
    have hweight : ∀ word, weight word next + weight word found.taken.cells =
        weight word row +
          weight word (callCells (trimEnd a) (trimEnd b) ++ [last]) := by
      intro word
      have hold := congrArg (weight word) hrow
      have hnew := congrArg (weight word) hnext
      rw [weight_wrap, weight_append, weight_append] at hold
      rw [weight_wrap, weight_append, weight_append word (_ ++ _)] at hnew
      omega
    refine .inr ⟨next, ?_, ?_, ?_, fun s => ?_⟩
    · rw [hrow] at h
      exact hnext ▸ hrewrite.legible_append h
    · have hplus := hweight ['+']
      omega
    · rintro word (rfl | rfl)
      · have hle := hrewrite.weight
        have hselect := hweight "select".toList
        omega
      · have hle := hrewrite.dollar
        have hdollar := hweight ['$']
        omega
    · rw [← hnext]
      exact joinStep_of_locate? h s hlocate hcells hfirst hmid hlast hcaptures

/-- The run over a sum ends with the same row at every index. -/
theorem exists_repeatSteps_joinStep (h : Legible row) : ∃ row', Legible row' ∧
      (∀ word, word = "select".toList ∨ word = ['$'] → weight word row' ≤ weight word row) ∧
      ∀ s limit, weight ['+'] row < limit →
        repeatSteps joinStep limit (text s (wrap row)) = .ok (text s (wrap row')) := by
  let at_ : σ → Row σ → Text := fun s inner => text s (wrap inner)
  let Inv : Row σ → Prop := fun inner => Legible (wrap inner) ∧
    ∀ word, word = "select".toList ∨ word = ['$'] → weight word inner ≤ weight word row
  have hstep : ∀ inner, Inv inner → (∀ s, joinStep (at_ s inner) = .ok none) ∨
      ∃ next, Inv next ∧ weight ['+'] next < weight ['+'] inner ∧
        ∀ s, joinStep (at_ s inner) = .ok (some (at_ s next)) := by
    rintro inner ⟨hlegible, hweight⟩
    refine (exists_joinStep hlegible).imp_right ?_
    rintro ⟨next, hnext, hless, hle, hresult⟩
    exact ⟨next, ⟨hnext, fun word hword => (hle word hword).trans (hweight word hword)⟩, hless,
      hresult⟩
  obtain ⟨row', ⟨hlegible, hweight⟩, hrun⟩ := exists_repeatSteps (μ := weight ['+']) hstep
    ⟨legible_wrap h, fun _ _ => Nat.le_refl _⟩
  exact ⟨row', hlegible.of_isInfix ⟨[plusCell], [plusCell], rfl⟩, hweight, hrun⟩

/-- The pluses around a row are cut off. -/
theorem slice_wrap (s : σ) (row : Row σ) :
    (text s (wrap row)).slice 1 ((text s (wrap row)).byteSize - 1) = .ok (text s row) := by
  have hplus : Text.byteSize ['+'] = 1 := by decide
  have hsize : Text.byteSize (['+'] ++ (text s row ++ ['+'])) - 1 =
      Text.byteSize ['+'] + (text s row).byteSize := by
    simp only [Text.byteSize_append, hplus]
    omega
  rw [text_wrap]
  exact Text.slice_append hplus hsize.symm

/-- A sum ends as the same row at every index. -/
theorem Row.exists_concatExpression (h : Legible row) : ∃ row', Legible row' ∧
      (∀ word, word = "select".toList ∨ word = ['$'] → weight word row' ≤ weight word row) ∧
      ∀ s, concatExpression (text s row) = .ok (text s row') := by
  obtain ⟨row', hlegible, hweight, hrun⟩ := exists_repeatSteps_joinStep h
  refine ⟨row', hlegible, hweight, fun s => ?_⟩
  have hlimit : weight ['+'] row < stepLimit (text s (wrap row)) := by
    refine lt_stepLimit ((weight_le_length _ _).trans ((length_le_length_text s row).trans ?_))
    simp only [text_wrap, length_append, length_cons]
    omega
  rw [concatExpression]
  simp only [← text_wrap, hrun s _ hlimit, ok_bind]
  exact slice_wrap s row'

/-! ## The elements of a select list -/

/-- An expression with its alias, if it has one. -/
def changedPart (expression suffix : Row σ) : Part σ :=
  if suffix.isEmpty then .ofRow expression else aliasedPart ⟨expression, []⟩ ⟨suffix, []⟩

theorem legible_changedPart {expression suffix : Row σ} (hexpression : Legible expression)
    (hsuffix : Legible suffix) : Legible (changedPart expression suffix).row := by
  rw [changedPart]
  split
  · exact hexpression
  · exact legible_aliasedPart hexpression hsuffix

theorem weight_changedPart_le {word : Text} (hword : word ≠ "as".toList)
    (expression suffix : Row σ) : (changedPart expression suffix).weight word ≤
      weight word expression + weight word suffix := by
  rw [changedPart]
  split
  · exact Nat.le_add_right _ _
  · rw [aliasedPart, Part.weight_append, Part.weight_append, Part.weight_ofRow, Part.weight_ofRow,
      weight_wordPart _ hword.symm]
    exact Nat.le_refl _

theorem isEmpty_text (s : σ) (row : Row σ) : (text s row).isEmpty = row.isEmpty := by
  cases row with
  | nil => rfl
  | cons cell row => simp [cell.lexeme.text_ne_nil]

/-- An element of a select list becomes the same part at every index. -/
theorem exists_changedElement {item : Item σ} (h : Legible item.expression) :
    ∃ expression, Legible expression ∧
      (∀ word, word = "select".toList ∨ word = ['$'] →
        weight word expression ≤ weight word item.expression) ∧
      ∀ s, changedElement (item.element .select s) =
        .ok ((changedPart expression item.suffix).text s) := by
  obtain ⟨b, hb⟩ := exists_isStringConcat h
  obtain ⟨expression, hlegible, hweight, htext⟩ : ∃ expression, Legible expression ∧
      (∀ word, word = "select".toList ∨ word = ['$'] →
        weight word expression ≤ weight word item.expression) ∧
      ∀ s, (if b then concatExpression (text s item.expression)
        else pure (text s item.expression)) = .ok (text s expression) := by
    cases b with
    | true => exact exists_concatExpression h
    | false => exact ⟨item.expression, h, fun _ _ => Nat.le_refl _, fun _ => rfl⟩
  refine ⟨expression, hlegible, hweight, fun s => ?_⟩
  have helement : item.element .select s =
      ⟨text s item.expression, text s item.suffix⟩ := by
    simp [Item.element]
  have hprint : (if item.suffix.isEmpty then pure (text s expression)
      else pure (text s expression ++ " as ".toList ++ text s item.suffix)) =
        (.ok ((changedPart expression item.suffix).text s) : Except Error Text) := by
    rw [changedPart]
    split
    · rfl
    · rw [text_aliasedPart]
      rfl
  have hchanged := htext s
  rw [helement, changedElement]
  simp only [hb s, ok_bind, isEmpty_text]
  cases b with
  | true =>
    rw [if_pos rfl] at hchanged
    rw [if_pos rfl, hchanged, ok_bind, hprint]
  | false =>
    rw [if_neg Bool.false_ne_true] at hchanged
    rw [if_neg Bool.false_ne_true, hchanged, ok_bind, hprint]

/-- A select list becomes the same list of parts at every index. -/
theorem exists_changedList (hlegible : Legible row) (hclosed : Closed row) :
    ∃ parts : List (Part σ), Legible ((ofRow .select row).relisted parts).row ∧
      (∀ word, word = "select".toList ∨ word = ['$'] →
        ((ofRow .select row).relisted parts).weight word ≤ weight word row) ∧
      ∀ s, ((ofRow .select row).commaList .select s).elements.mapM
        changedElement = .ok (parts.map (Part.text s)) := by
  obtain ⟨-, -, hitems⟩ := legible_ofRow .select hlegible hclosed
  have hone : ∀ item ∈ (ofRow .select row).items, ∃ part : Part σ,
      (Legible part.row ∧ ∀ word, word = "select".toList ∨ word = ['$'] →
        part.weight word ≤ weight word item.expression + weight word item.suffix) ∧
      ∀ s, changedElement (item.element .select s) = .ok (part.text s) := by
    intro item hitem
    obtain ⟨expression, hexpression, hweight, htext⟩ := exists_changedElement (hitems item hitem).1
    refine ⟨_, ⟨legible_changedPart hexpression (hitems item hitem).2, fun word hword => ?_⟩, htext⟩
    have hname : word ≠ "as".toList := by rcases hword with rfl | rfl <;> decide
    have hchanged := weight_changedPart_le hname expression item.suffix
    have hle := hweight word hword
    omega
  obtain ⟨parts, hparts, hmap⟩ := exists_mapM_text hone
  refine ⟨parts, legible_relisted .select hlegible hclosed ?_, fun word hword => ?_, fun s => ?_⟩
  · exact forall_mem_of_forall₂ hparts fun _ _ _ hpart => hpart.1
  · exact weight_relisted_le .select row (hparts.imp fun _ _ hpart => hpart.2 word hword)
  · rw [commaList, mapM_map]
    exact hmap s

/-! ## The run -/

/-- A space. -/
def spacePart : Part σ :=
  ⟨[' '], blank_space, []⟩

theorem closes_append_spacePart (part : Part σ) : (part ++ spacePart).Closes := by
  by_cases hrow : part.row = []
  · rw [Part.append_of_row_eq_nil hrow]
    nofun
  · obtain ⟨init, last, hlast⟩ := (eq_nil_or_concat part.row).resolve_left hrow
    rw [Part.append_of_row_ne_nil hrow, hlast, concat_eq_append, mapLast_concat]
    intro cell hcell
    rw [spacePart, append_nil, getLast?_concat] at hcell
    cases hcell
    exact .inl fun s => append_ne_nil_of_right_ne_nil _ (cons_ne_nil _ _)

theorem blocks_selectPattern : selectPattern.blocks =
    [.literal "select".toList, .placeholder "a".toList none, .literal "from".toList] := by
  decide

/-- The text with the select list of a match changed. -/
def reconcat (sql : Text) (found : PatternMatch) : Except Error Text := do
  let select ← CommaList.parse .select (capture found "a")
  let items ← select.elements.mapM changedElement
  sql.replaceSlice found.start found.stop ("select ".toList ++ select.lead ++
    CommaList.join items ++ select.tail ++ " from".toList)

/-- The select list of a match is rewritten into the same cells at every index. -/
theorem exists_reconcat (lead : σ → Text) (pre : Row σ) (taken : Row.Taken σ)
    (hlegible : Row.Legible (pre ++ (taken.cells ++ taken.later)))
    (htakes : Row.Takes selectPattern.blocks taken.cells taken.captures) :
    ∃ new, Row.Rewrite "select".toList taken.cells new ∧ ∀ s,
      reconcat (lead s ++ Row.text s (pre ++ (taken.cells ++ taken.later)))
          (taken.report s (lead s) pre) =
        .ok (lead s ++ Row.text s (pre ++ (new ++ taken.later))) := by
  rw [blocks_selectPattern] at htakes
  obtain ⟨first, _, hcells, hfirst, a, last, _, _, rfl, hcaptures, hclosed, hlast, rfl, rfl⟩ :=
    htakes
  have ha : Row.Legible (Row.trimEnd a) := by
    refine (hlegible.of_isInfix (List.IsInfix.trans ?_ (infix_append' _ _ _))).trimEnd
    rw [hcells]
    exact ⟨[first], [last], rfl⟩
  obtain ⟨parts, hlist, hweight, hmap⟩ := exists_changedList ha hclosed.trimEnd
  let part : Part σ := .ofRow [first.small.spaced [' '] blank_space] ++
    (ofRow .select (Row.trimEnd a)).relisted parts ++ spacePart
  have hstarts : Part.Starts first.small.lexeme part :=
    ((Part.starts_ofRow (first.small.spaced [' '] blank_space) []).append _).append _
  have hrewrite : Row.Rewrite "select".toList taken.cells (part ++ .ofRow [last.small]).row := by
    refine rewrite_of_starts hstarts ?_ ?_ ?_
      (.inl (closes_append_spacePart _)) fun word hword => ?_
    · rw [hcells, head?_cons, Option.map_some, shape_small]
    · rw [hcells, ← cons_append, getLast?_concat, Option.map_some, ending, ending, shape_small]
      rfl
    · refine Part.legible_append ?_ isChain_nil (.inr (.inl (cons_ne_nil _ _)))
      exact Part.legible_append (isChain_singleton _) hlist
        (.inl (closes_spaced first.small))
    · have hle := hweight word hword
      have hspaced : Row.weight word [first.small.spaced [' '] blank_space] =
          Row.weight word [first] :=
        (weight_eq_of_map_lexeme word rfl).trans (weight_small word first)
      have hspace : (spacePart : Part σ).weight word = 0 := rfl
      rw [weight_trimEnd] at hle
      rw [Part.weight_append, Part.weight_append, Part.weight_ofRow, hspaced, hspace, hcells,
        weight_small, weight_cons word first (a ++ [last]), weight_append]
      omega
  refine ⟨_, hrewrite, fun s => ?_⟩
  have hget : taken.get "a".toList = a := by
    rw [Row.Taken.get, hcaptures]
    rfl
  have hbody : Row.body s (part ++ .ofRow [last.small]).row = "select ".toList ++
      (ofRow .select (Row.trimEnd a)).lead.text s ++
      CommaList.join (parts.map (Part.text s)) ++
      (ofRow .select (Row.trimEnd a)).tail.text s ++ " from".toList := by
    rw [hstarts.body_append, text_small_of_is hlast, Part.text_append, Part.text_append,
      Part.text_ofRow, text_relisted, text_cons, text_nil]
    have hselect : (first.small.spaced [' '] blank_space).lexeme.text = "select".toList :=
      text_small_of_is hfirst
    rw [hselect]
    simp [spaced, spacePart, Part.text]
  rw [reconcat, Row.Taken.capture_report, hget, parse_text .select s ha hclosed.trimEnd,
    ok_bind, hmap s, ok_bind]
  have hslice := hrewrite.replaceSlice_text (by rw [hcells]; simp) s (lead s) pre taken.later
  rw [hbody] at hslice
  exact hslice

theorem step_reconcat (state : Progress) : step state = do
    match ← findClause state.sql selectPattern state.first with
    | none => return none
    | some found => return some ⟨← reconcat state.sql found, found.startToken + 1⟩ := by
  rw [step]
  congr 1
  funext found
  cases found with
  | none => rfl
  | some found => simp only [reconcat, bind_assoc]

/-- The run over all select lists ends with a row. -/
theorem Row.exists_replaceConcats {lead : σ → Text} (hlead : ∀ s, Heading (lead s))
    (hlegible : Legible row) (hdollar : Unmarked row) :
    ∃ row', Legible row' ∧ Unmarked row' ∧
      ∀ s, replaceConcats (lead s ++ text s row) = .ok (lead s ++ text s row') := by
  obtain ⟨row', hlegible', hdollar', -, hrun⟩ := exists_run blocks_selectPattern (by decide) _
    step_reconcat hlead (fun pre taken hlegible _ htakes =>
      exists_reconcat lead pre taken hlegible htakes) hlegible hdollar
  exact ⟨row', hlegible', hdollar', hrun⟩

end Layout

end SqlScript
