import SqlScript.BigQuery.CommonTable
import SqlScript.Proofs.RowRun

/-!
# Common table expressions in rows

The columns of a common table expression become aliases of its select list. In a row that puts the
cells of the name, of the expressions, of the columns and of the rest together again
(`Layout.tablePart`), with the first and the last cell of the match around them. So the run over all
such expressions ends with a row (`Row.exists_aliasColumns`).
-/

namespace SqlScript

open List Layout.Part Layout.Listing BigQuery.CommonTable Layout.Cell

namespace Layout

open BigQuery

variable {σ : Type}

/-! ## The new text of an expression -/

/-- The pattern of a common table expression behind its first word. -/
def tableBlocks : List PatternBlock :=
  [.placeholder "a".toList none, .literal ['('], .placeholder "b".toList none, .literal [')'],
    .literal "as".toList, .literal ['('], .literal "select".toList, .placeholder "c".toList none,
    .literal "from".toList, .placeholder "d".toList none, .literal [')']]

theorem blocks_firstPattern : firstPattern.blocks = .literal "with".toList :: tableBlocks := by
  decide

theorem blocks_nextPattern : nextPattern.blocks = .literal [','] :: tableBlocks := by
  decide

/-- ` as (select ` as a part. -/
def asSelectPart : Part σ :=
  ⟨[' '], blank_space, [.spacedWord "as".toList isSmallWord_as, .ofSymbol '(' isPlainSymbol_open,
    .spacedWord "select".toList isSmallWord_select]⟩

/-- The word between spaces. -/
def wordPart (t : Text) (h : isSmallWord t = true) : Part σ :=
  ⟨[' '], blank_space, [.spacedWord t h]⟩

/-- An expression with a column as its alias. -/
def aliasedPart (item column : Item σ) : Part σ :=
  .ofRow item.expression ++ wordPart "as".toList (by decide) ++ .ofRow column.expression

/-- The common table expression with its columns as aliases, up to the last parenthesis. -/
def tablePart (first : Cell σ) (a b c d : Row σ) : Part σ :=
  let select := ofRow .select c
  .ofRow [first.spaced [' '] blank_space] ++ .ofRow a ++ asSelectPart ++ select.lead ++
    .join (select.items.zipWith aliasedPart (ofRow .columns b).items) ++ select.tail ++
    wordPart "from".toList (by decide) ++ .ofRow d

theorem text_wordPart (s : σ) (t : Text) (h : isSmallWord t) :
    (wordPart t h).text s = ' ' :: (t ++ [' ']) := by
  simp [wordPart, Part.text, spacedWord, spaced, ofWord, Lexeme.text]

theorem text_aliasedPart (s : σ) (item column : Item σ) : (aliasedPart item column).text s =
    Row.text s item.expression ++ " as ".toList ++ Row.text s column.expression := by
  rw [aliasedPart, text_append, text_append, text_ofRow, text_ofRow, text_wordPart]
  rfl

theorem text_tablePart (s : σ) (first : Cell σ) (a b c d : Row σ) :
    (tablePart first a b c d).text s =
      first.lexeme.text ++ [' '] ++ Row.text s a ++ " as (select ".toList ++
        (ofRow .select c).lead.text s ++
        CommaList.join ((ofRow .select c).items.zipWith
          (fun item column => Row.text s item.expression ++ " as ".toList ++
            Row.text s column.expression) (ofRow .columns b).items) ++
        (ofRow .select c).tail.text s ++ " from ".toList ++ Row.text s d := by
  simp only [tablePart, text_append, text_ofRow, text_join, map_zipWith,
    text_aliasedPart, text_wordPart, Row.text_cons, Row.text_nil, spaced, append_nil]
  rfl

/-- The new text of a match. -/
theorem aliased_report (s : σ) (lead : Text) (pre : Row σ) {taken : Row.Taken σ}
    {a b c d : Row σ} (hcaptures : taken.captures = [("a".toList, a), ("b".toList, b),
      ("c".toList, c), ("d".toList, d)]) (hb : Row.Legible b ∧ Row.Closed b)
    (hc : Row.Legible c ∧ Row.Closed c) {first : Cell σ} {word : Text}
    (hfirst : first.lexeme.text = word) :
    aliased (word ++ [' ']) (taken.report s lead pre) =
      .ok ((tablePart first (Row.trimEnd a) (Row.trimEnd b) (Row.trimEnd c)
        (Row.trimEnd d)).text s ++ [')']) := by
  have hget : taken.get "a".toList = a ∧ taken.get "b".toList = b ∧ taken.get "c".toList = c ∧
      taken.get "d".toList = d := by
    simp only [Row.Taken.get, hcaptures]
    exact ⟨rfl, rfl, rfl, rfl⟩
  rw [aliased]
  simp only [Row.Taken.capture_report, hget,
    Row.parse_text _ s hb.1.trimEnd hb.2.trimEnd, Row.parse_text _ s hc.1.trimEnd hc.2.trimEnd,
    ok_bind, commaList, zipWith_map, text_tablePart, hfirst]
  rfl

/-! ## Legibility -/

theorem closes_spaced (cell : Cell σ) : (Part.ofRow [cell.spaced [' '] blank_space]).Closes := by
  intro last hlast
  cases hlast
  exact .inl fun _ => cons_ne_nil _ _

theorem heads_wordPart (t : Text) (h : isSmallWord t) : (wordPart t h : Part σ).Heads :=
  ⟨isChain_singleton _, closes_spaced _⟩

theorem trails_wordPart (t : Text) (h : isSmallWord t) : (wordPart t h : Part σ).Trails :=
  ⟨isChain_singleton _, .inl (cons_ne_nil _ _)⟩

theorem legible_asSelectPart : Row.Legible (asSelectPart : Part σ).row := by
  refine isChain_cons_cons.2 ⟨fun _ => .inl (cons_ne_nil _ _), isChain_pair.2 ?_⟩
  exact fun _ => .inr (apart_of_inert (.inl (show inert '(' by decide)))

theorem closes_asSelectPart : (asSelectPart : Part σ).Closes := by
  intro last hlast
  cases hlast
  exact .inl fun _ => cons_ne_nil _ _

theorem legible_aliasedPart {item column : Item σ} (hitem : Row.Legible item.expression)
    (hcolumn : Row.Legible column.expression) : Row.Legible (aliasedPart item column).row := by
  have hword := heads_wordPart (σ := σ) "as".toList (by decide)
  refine legible_append (legible_append hitem hword.legible ?_) hcolumn (.inl ?_)
  · exact .inr (trails_wordPart _ _).opens
  · exact .append (fun hnil => absurd hnil (cons_ne_nil _ _)) hword.closes

theorem legible_tablePart (first : Cell σ) {a b c d : Row σ} (ha : Row.Legible a)
    (hb : Row.Legible b ∧ Row.Closed b) (hc : Row.Legible c ∧ Row.Closed c)
    (hd : Row.Legible d) : Row.Legible (tablePart first a b c d).row := by
  obtain ⟨hlead, htail, hitems⟩ := legible_ofRow .select hc.1 hc.2
  obtain ⟨-, -, hcolumns⟩ := legible_ofRow .columns hb.1 hb.2
  have hjoin : Row.Legible (Part.join ((ofRow .select c).items.zipWith aliasedPart
      (ofRow .columns b).items)).row := by
    refine legible_join fun part hpart => ?_
    rw [← map_uncurry_zip_eq_zipWith, mem_map] at hpart
    obtain ⟨⟨item, column⟩, hmem, rfl⟩ := hpart
    obtain ⟨hitem, hcolumn⟩ := of_mem_zip hmem
    exact legible_aliasedPart (hitems item hitem).1 (hcolumns column hcolumn).1
  have hfrom := trails_wordPart (σ := σ) "from".toList (by decide)
  have hclosed (part : Part σ) : (part ++ asSelectPart).Closes :=
    .append (fun hnil => absurd hnil (cons_ne_nil _ _)) closes_asSelectPart
  refine legible_append ?_ hd (.inl (.append
    (fun hnil => absurd hnil (cons_ne_nil _ _)) (heads_wordPart _ _).closes))
  refine legible_append ?_ hfrom.legible (.inr hfrom.opens)
  refine legible_append ?_ htail.legible (.inr htail.opens)
  refine legible_append ?_ hjoin (.inl (.append (fun _ => hclosed _) hlead.closes))
  refine legible_append ?_ hlead.legible (.inl (hclosed _))
  refine legible_append ?_ legible_asSelectPart (.inr (.inl (cons_ne_nil _ _)))
  exact legible_append (isChain_singleton _) ha (.inl (closes_spaced first))

/-! ## Counting -/

theorem sum_zipWith_le {α β γ : Type} (f : α → β → γ) {w : γ → Nat} {u : α → Nat} {v : β → Nat}
    (h : ∀ x y, w (f x y) ≤ u x + v y) (l : List α) (l' : List β) :
    ((l.zipWith f l').map w).sum ≤ (l.map u).sum + (l'.map v).sum := by
  induction l generalizing l' with
  | nil => simp
  | cons x l ih =>
    cases l' with
    | nil => simp
    | cons y l' =>
      have hhead := h x y
      have htail := ih l'
      simp only [zipWith_cons_cons, map_cons, sum_cons]
      omega

theorem weight_wordPart {t text : Text} (h : isSmallWord t) (hne : t ≠ text) :
    (wordPart t h : Part σ).weight text = 0 := by
  rw [wordPart, Part.weight, Row.weight_is (is_spacedWord t h), if_neg hne]

/-- A word or symbol that is not written anew stands in the new text no more often than in the parts
of the old one. -/
theorem weight_tablePart_le {text : Text} (hword : text ≠ "as".toList ∧ text ≠ ['('] ∧
      text ≠ "select".toList ∧ text ≠ "from".toList) (first : Cell σ) (a b c d : Row σ) :
    (tablePart first a b c d).weight text ≤ Row.weight text [first] + Row.weight text a +
      Row.weight text b + Row.weight text c + Row.weight text d := by
  obtain ⟨has, hparen, hselect, hfrom⟩ := hword
  have hitems := weight_ofRow_le .select c text
  have hcolumns := weight_ofRow_le .columns b text
  have hword : (asSelectPart : Part σ).weight text = 0 := by
    have hopening : (ofSymbol '(' (by decide) : Cell σ).is ['('] := rfl
    rw [asSelectPart, Part.weight, Row.weight_cons_is (is_spacedWord _ _),
      Row.weight_cons_is hopening, Row.weight_is (is_spacedWord _ _), if_neg has.symm,
      if_neg hparen.symm, if_neg hselect.symm]
  have hsum := sum_zipWith_le aliasedPart (w := Part.weight text)
    (u := fun item : Item σ => Row.weight text item.expression + Row.weight text item.suffix)
    (v := fun item : Item σ => Row.weight text item.expression + Row.weight text item.suffix)
    (fun item column => by
      rw [aliasedPart, weight_append, weight_append, weight_ofRow,
        weight_ofRow, weight_wordPart _ has.symm]
      omega) (ofRow .select c).items (ofRow .columns b).items
  have hlength : ((ofRow .select c).items.zipWith aliasedPart
      (ofRow .columns b).items).length - 1 ≤ (ofRow .select c).items.length - 1 := by
    rw [length_zipWith]
    omega
  have hcommas := Nat.mul_le_mul_right ((Part.comma : Part σ).weight text) hlength
  have hfirst : Row.weight text [first.spaced [' '] blank_space] = Row.weight text [first] :=
    Row.weight_eq_of_map_lexeme text rfl
  simp only [tablePart, weight_append, weight_ofRow, weight_join, hword,
    weight_wordPart _ hfrom.symm, hfirst]
  omega

/-! ## The run -/

/-- The text with a match of a common table expression changed. -/
def retable (lead : Text) (sql : Text) (found : PatternMatch) : Except Error Text := do
  let new ← aliased lead found
  sql.replaceSlice found.start found.stop new

/-- The match is a common table expression with a column list. -/
structure Row.Taken.Table (taken : Row.Taken σ) (word : Text) (first last : Cell σ)
    (a b c d : Row σ) : Prop where
  captures : taken.captures =
    [("a".toList, a), ("b".toList, b), ("c".toList, c), ("d".toList, d)]
  ends : taken.cells.head? = some first ∧ taken.cells.getLast? = some last
  opens : first.is word = true
  closes : last.is [')'] = true
  parts : a <:+: taken.cells ∧ (b <:+: taken.cells ∧ Row.Closed b) ∧
    (c <:+: taken.cells ∧ Row.Closed c) ∧ d <:+: taken.cells
  weight (text : Text) : Row.weight text [first] + Row.weight text a + Row.weight text b +
    Row.weight text c + Row.weight text d + Row.weight text [last] ≤ Row.weight text taken.cells

theorem exists_table {word : Text} {taken : Row.Taken σ}
    (htakes : Row.Takes (.literal word :: tableBlocks) taken.cells taken.captures) :
    ∃ first last a b c d, taken.Table word first last a b c d := by
  have hcapture := htakes.capture
  obtain ⟨first, _, hcells, hfirst, a, opening, _, _, rfl, hcaptures, -, hopening, b, closing, _, _,
    rfl, rfl, -, hclosing, as, _, rfl, has, paren, _, rfl, hparen, select, _, rfl, hselect, c,
    from_, _, _, rfl, rfl, -, hfrom, d, last, _, _, rfl, rfl, -, hlast, rfl, rfl⟩ := htakes
  rw [hcaptures] at hcapture
  simp only [forall_mem_cons] at hcapture
  obtain ⟨⟨ha, -⟩, hb, hc, ⟨hd, -⟩, -⟩ := hcapture
  refine ⟨first, last, a, b, c, d, hcaptures, ⟨?_, ?_⟩, hfirst, hlast, ⟨ha, hb, hc, hd⟩,
    fun text => ?_⟩
  · rw [hcells]
    rfl
  · rw [hcells]
    simp [getLast?_cons, getLast?_append]
  · rw [hcells]
    simp only [Row.weight_nil, Row.weight_append, Row.weight_cons_is hfirst,
      Row.weight_cons_is hopening, Row.weight_cons_is hclosing, Row.weight_cons_is has,
      Row.weight_cons_is hparen, Row.weight_cons_is hselect, Row.weight_cons_is hfrom]
    omega

theorem starts_tablePart (first : Cell σ) (a b c d : Row σ) :
    Part.Starts first.lexeme (tablePart first a b c d) := by
  repeat' apply Part.Starts.append
  exact starts_ofRow (first.spaced [' '] blank_space) []

/-- The cells that take the place of a common table expression. -/
def tableRow (first last : Cell σ) (a b c d : Row σ) : Row σ :=
  (tablePart first.small (Row.trimEnd a) (Row.trimEnd b) (Row.trimEnd c) (Row.trimEnd d) ++
    .ofRow [last]).row

namespace Row.Taken.Table

variable {taken : Row.Taken σ} {word : Text} {first last : Cell σ} {a b c d : Row σ}
  (h : taken.Table word first last a b c d) {pre : Row σ}
  (hlegible : Row.Legible (pre ++ (taken.cells ++ taken.later)))

include h

theorem text_last : last.lexeme.text = [')'] :=
  text_of_is h.closes (by decide)

include hlegible

theorem legible : Row.Legible a ∧ Row.Legible b ∧ Row.Legible c ∧ Row.Legible d := by
  have hpart : ∀ {row : Row σ}, row <:+: taken.cells → Row.Legible row := fun h =>
    hlegible.of_isInfix (h.trans (infix_append' _ _ _))
  obtain ⟨ha, ⟨hb, -⟩, ⟨hc, -⟩, hd⟩ := h.parts
  exact ⟨hpart ha, hpart hb, hpart hc, hpart hd⟩

theorem rewrite (hword : word ≠ "as".toList ∧ word ≠ ['('] ∧ word ≠ "select".toList ∧
    word ≠ "from".toList) : Row.Rewrite word taken.cells (tableRow first last a b c d) := by
  obtain ⟨ha, hb, hc, hd⟩ := h.legible hlegible
  obtain ⟨-, ⟨-, hclosedB⟩, ⟨-, hclosedC⟩, -⟩ := h.parts
  have hweight : ∀ text : Text, text ≠ "as".toList ∧ text ≠ ['('] ∧ text ≠ "select".toList ∧
      text ≠ "from".toList → (tablePart first.small (Row.trimEnd a) (Row.trimEnd b)
        (Row.trimEnd c) (Row.trimEnd d)).weight text + Row.weight text [last] ≤
      Row.weight text taken.cells := by
    intro text htext
    have hle := weight_tablePart_le htext first.small (Row.trimEnd a) (Row.trimEnd b)
      (Row.trimEnd c) (Row.trimEnd d)
    have hcells := h.weight text
    simp only [Row.weight_trimEnd, Row.weight_small] at hle
    omega
  refine Row.rewrite_of_starts (starts_tablePart _ _ _ _ _) ?_ (by rw [h.ends.2]; rfl)
    (legible_tablePart first.small ha.trimEnd ⟨hb.trimEnd, hclosedB.trimEnd⟩
      ⟨hc.trimEnd, hclosedC.trimEnd⟩ hd.trimEnd)
    (.inr (.inr fun cell hcell => ?_)) ?_
  · rw [h.ends.1, Option.map_some, shape_small]
  · cases hcell
    rw [h.text_last]
    exact show inert ')' by decide
  · rintro text (rfl | rfl)
    · exact hweight text hword
    · exact hweight _ (by decide)

/-- The new text of the match. -/
theorem aliased_eq (s : σ) (lead : Text) :
    aliased (word ++ [' ']) (taken.report s lead pre) =
      .ok (Row.body s (tableRow first last a b c d)) := by
  obtain ⟨-, hb, hc, -⟩ := h.legible hlegible
  obtain ⟨-, ⟨-, hclosedB⟩, ⟨-, hclosedC⟩, -⟩ := h.parts
  rw [aliased_report s lead pre h.captures ⟨hb, hclosedB⟩ ⟨hc, hclosedC⟩
    (text_small_of_is h.opens), tableRow,
    (starts_tablePart _ _ _ _ _).body_append, h.text_last]

theorem retable_eq (hword : word ≠ "as".toList ∧ word ≠ ['('] ∧ word ≠ "select".toList ∧
    word ≠ "from".toList) (s : σ) (lead : Text) :
    retable (word ++ [' ']) (lead ++ Row.text s (pre ++ (taken.cells ++ taken.later)))
        (taken.report s lead pre) =
      .ok (lead ++ Row.text s (pre ++ (tableRow first last a b c d ++ taken.later))) := by
  rw [retable, h.aliased_eq hlegible, ok_bind]
  exact (h.rewrite hlegible hword).replaceSlice_text
    (ne_nil_of_mem (mem_of_getLast? h.ends.2)) s lead pre taken.later

end Row.Taken.Table

/-- A match of a common table expression is rewritten into the same cells at every index. -/
theorem exists_retable {word : Text} (hword : word ≠ "as".toList ∧ word ≠ ['('] ∧
      word ≠ "select".toList ∧ word ≠ "from".toList) (lead : σ → Text) (pre : Row σ)
    (taken : Row.Taken σ) (hlegible : Row.Legible (pre ++ (taken.cells ++ taken.later)))
    (htakes : Row.Takes (.literal word :: tableBlocks) taken.cells taken.captures) :
    ∃ new, Row.Rewrite word taken.cells new ∧ ∀ s,
      retable (word ++ [' ']) (lead s ++ Row.text s (pre ++ (taken.cells ++ taken.later)))
          (taken.report s (lead s) pre) =
        .ok (lead s ++ Row.text s (pre ++ (new ++ taken.later))) := by
  obtain ⟨first, last, a, b, c, d, htable⟩ := exists_table htakes
  exact ⟨_, htable.rewrite hlegible hword, fun s => htable.retable_eq hlegible hword s (lead s)⟩

theorem step_retable (pattern : Pattern) (lead : Text) (state : Progress) :
    step pattern lead state = do
      match ← findClause state.sql pattern state.first with
      | none => return none
      | some found => return some ⟨← retable lead state.sql found, found.startToken + 1⟩ := by
  rw [step]
  congr 1
  funext found
  cases found with
  | none => rfl
  | some found => simp only [retable, bind_assoc]

/-- The run over the common table expressions that the pattern finds ends with a row. -/
theorem Row.exists_aliasColumns {pattern : Pattern} {word : Text}
    (hblocks : pattern.blocks = .literal word :: tableBlocks)
    (hword : word ≠ "as".toList ∧ word ≠ ['('] ∧ word ≠ "select".toList ∧ word ≠ "from".toList)
    (hsimple : ∀ block ∈ pattern.blocks, block.Simple) {lead : σ → Text}
    (hlead : ∀ s, Heading (lead s)) {row : Row σ} (hlegible : Row.Legible row)
    (hdollar : Row.Unmarked row) : ∃ row', Row.Legible row' ∧ Row.Unmarked row' ∧
      ∀ s, aliasColumns pattern (word ++ [' ']) (lead s ++ Row.text s row) =
        .ok (lead s ++ Row.text s row') := by
  obtain ⟨row', hlegible', hdollar', -, hrun⟩ := Row.exists_run hblocks hsimple _
    (step_retable pattern (word ++ [' '])) hlead (fun pre taken hlegible _ htakes =>
      exists_retable hword lead pre taken hlegible (hblocks ▸ htakes)) hlegible hdollar
  exact ⟨row', hlegible', hdollar', hrun⟩

end Layout

end SqlScript
