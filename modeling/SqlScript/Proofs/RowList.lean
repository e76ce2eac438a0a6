import SqlScript.Proofs.Compose

/-!
# Comma-separated lists of rows

A closed row is cut at its commas outside of parentheses (`Row.splitCommas`), and what is cut out is
told apart into an expression and an alias or direction (`Item.ofRow`). `Row.elementsOf_text` says
that the elements of the text of a row are those of the row, at every index.
-/

namespace SqlScript

open List Option Layout.Row BigQuery Layout.Lexeme Layout.Cell Token

namespace Layout

variable {σ : Type}

namespace Row

/-! ## Whole texts -/

/-- The row between the marks that are put around a whole text. -/
def whole (row : Row σ) : Row σ :=
  ofSymbol '^' (by decide) :: (row ++ [ofSymbol '$' (by decide)])

theorem text_whole (s : σ) (row : Row σ) : text s (whole row) = '^' :: text s row ++ ['$'] := by
  simp [whole, Cell.ofSymbol, Lexeme.text]

/-- A cell that ends with a character that runs together with nothing can stand before a row. -/
theorem Legible.cons {cell : Cell σ} {row : Row σ} (h : Legible row)
    (hcell : cell.lexeme.text.getLast?.all inert) : Legible (cell :: row) :=
  isChain_cons.2 ⟨fun _ _ _ => .inr (Part.apart_of_inert (.inl hcell)), h⟩

/-- A row that starts with a character that runs together with nothing can stand behind a row. -/
theorem Legible.append_cons {a b : Row σ} {cell : Cell σ} (ha : Legible a)
    (hb : Legible (cell :: b)) (hcell : cell.lexeme.text.head?.all inert) :
    Legible (a ++ cell :: b) := by
  refine isChain_append.2 ⟨ha, hb, fun _ _ first hfirst _ => ?_⟩
  cases hfirst
  exact .inr (Part.apart_of_inert (.inr hcell))

theorem Legible.whole {row : Row σ} (h : Legible row) : Legible (whole row) := by
  have hend : Legible (row ++ [ofSymbol '$' (by decide)]) :=
    h.append_cons (isChain_singleton _) (show inert '$' by decide)
  exact hend.cons (show inert '^' by decide)

theorem Legible.of_isInfix {a b : Row σ} (h : Legible b) (hpart : a <:+: b) : Legible a := by
  obtain ⟨before, after, rfl⟩ := hpart
  exact (isChain_append.1 (isChain_append.1 h).1).2.1

/-- What a pattern for a whole text takes out of a row is legible and closed. -/
theorem Legible.get {row : Row σ} (hlegible : Legible row) {blocks : List PatternBlock}
    {found : Found σ} (h : locate? blocks (Row.whole row) = some found) (name : Text) :
    Legible (Row.trimEnd (found.taken.get name)) ∧ Closed (Row.trimEnd (found.taken.get name)) := by
  obtain ⟨hpart, hclosed⟩ := get_of_locate? h name
  exact ⟨(hlegible.whole.of_isInfix hpart).trimEnd, hclosed.trimEnd⟩

theorem findWhole_text (s : σ) {pattern : Pattern} {text : Text} {blocks : List PatternBlock}
    (hblocks : pattern.blocks = .literal text :: blocks)
    (hsimple : ∀ block ∈ pattern.blocks, block.Simple) {row : Row σ} (h : Legible row) :
    BigQuery.findWhole (Row.text s row) pattern =
      .ok ((locate? pattern.blocks (whole row)).map (Found.report s [] 0)) := by
  have hlegible : Legible ([] ++ whole row) := h.whole
  rw [BigQuery.findWhole, ← text_whole]
  exact findClause_text s hblocks hsimple .nil hlegible

end Row

/-! ## The elements of a list -/

/-- An element of a list of rows. -/
structure Item (σ : Type) where
  expression : Row σ
  /-- The alias or the direction. -/
  suffix : Row σ

namespace Item

open BigQuery (ListKind Element)

/-- The element of a list of texts at an index. -/
def element (kind : ListKind) (s : σ) (item : Item σ) : Element where
  expression := text s item.expression
  suffix :=
    if kind = .orderBy ∧ item.suffix ≠ [] then ' ' :: text s item.suffix
    else text s item.suffix

/-- Whether the tokens with the keys end in an alias without `as`. -/
def endsInAlias (keys : List (Text × Bool)) : Bool :=
  match keys.reverse with
  | last :: before :: _ => Element.isBareAlias (ofKey before) (ofKey last)
  | _ => false

/-- Whether the tokens with the keys end in a direction. -/
def endsInDirection (keys : List (Text × Bool)) : Bool :=
  keys.getLast?.any fun last =>
    (ofKey last).is "asc".toList || (ofKey last).is "desc".toList

/-- The row without its last cell, and that. -/
def splitLast (row : Row σ) : Item σ :=
  ⟨trimEnd row.dropLast, row.getLast?.toList.map (·.spaced [] Text.blank_nil)⟩

/-- The expression and alias of an element of a select list. -/
def ofAlias (row : Row σ) : Item σ :=
  match locate? Element.aliasPattern.blocks (whole row) with
  | some found => ⟨trimEnd (found.taken.get "a".toList), trimEnd (found.taken.get "b".toList)⟩
  | none => if endsInAlias (keys row) then splitLast row else ⟨row, []⟩

/-- The expression and direction of an element of an `order by` list. -/
def ofDirection (row : Row σ) : Item σ :=
  if endsInDirection (keys row) then splitLast row else ⟨row, []⟩

/-- The element of a row. -/
def ofRow (kind : ListKind) (row : Row σ) : Item σ :=
  match kind with
  | .select => ofAlias row
  | .orderBy => ofDirection row
  | .groupBy | .columns | .values => ⟨row, []⟩

/-- The last token of a row is a cell of its own, unless it is a quote mark. -/
theorem exists_last {row : Row σ} {key : Text × Bool} (h : (Row.keys row).getLast? = some key)
    (hquote : (Token.ofKey key).isQuote = false) : ∃ init cell, row = init ++ [cell] ∧
      cell.lexeme.isLiteral = false ∧ key.1 = cell.lexeme.text := by
  rcases eq_nil_or_concat row with rfl | ⟨init, cell, rfl⟩
  · simp at h
  · rw [concat_eq_append] at h ⊢
    refine ⟨init, cell, rfl, ?_⟩
    rw [Row.keys_append, Row.keys_cons, Row.keys_nil, append_nil] at h
    cases hlexeme : cell.lexeme with
    | word w =>
      rw [hlexeme, Lexeme.keys_of_isLiteral_eq_false rfl, getLast?_concat] at h
      exact ⟨rfl, by rw [← Option.some.inj h]⟩
    | symbol c =>
      rw [hlexeme, Lexeme.keys_of_isLiteral_eq_false rfl, getLast?_concat] at h
      exact ⟨rfl, by rw [← Option.some.inj h]⟩
    | literal l =>
      obtain ⟨inside, -, htokens⟩ := exists_tokens_literal 0 l
      rw [hlexeme, Lexeme.keys, htokens, map_cons, map_append, map_singleton,
        ← cons_append, ← append_assoc, getLast?_concat] at h
      rw [← Option.some.inj h] at hquote
      have hmark := isQuote_opening l 0 0
      exact absurd (hquote.symm.trans hmark) Bool.false_ne_true

/-- Where the last token is cut off, the last cell is. -/
theorem splitLast_text (s : σ) {row : Row σ} (hlegible : Row.Legible row) {last : Token}
    (hlast : (tokens (Row.text s row)).getLast? = some last) (hquote : last.isQuote = false) :
    ∃ expression, (Row.text s row).sliceTo last.start = .ok expression ∧
      expression.trimEnd = Row.text s (splitLast row).expression ∧
      last.text = Row.text s (splitLast row).suffix ∧ (splitLast row).suffix ≠ [] := by
  have htokens := Row.tokens_text_zero hlegible s
  have hkey : (Row.keys row).getLast? = some last.key := by
    rw [← Row.map_key_tokens s 0, getLast?_map]
    rw [htokens] at hlast
    exact congrArg (Option.map Token.key) hlast
  obtain ⟨init, cell, rfl, hcell, htext⟩ := exists_last hkey hquote
  rw [htokens, Row.tokens_append, Row.tokens_cons,
    Lexeme.tokens_of_isLiteral_eq_false hcell] at hlast
  have hnil : ∀ offset, Row.tokens s offset ([] : Row σ) = [] := fun _ => rfl
  rw [hnil, append_nil, getLast?_concat, Option.some.injEq] at hlast
  subst hlast
  refine ⟨Row.text s init, ?_, ?_, ?_, ?_⟩
  · rw [Row.text_append]
    exact Text.sliceTo_append (Nat.zero_add _).symm
  · rw [splitLast, dropLast_concat, Row.text_trimEnd]
  · simp [splitLast, Cell.spaced, Lexeme.tokenAt]
  · simp [splitLast]

theorem blocks_aliasPattern : Element.aliasPattern.blocks =
    [.literal ['^'], .placeholder ['a'] none, .literal ['a', 's'], .placeholder ['b'] none,
      .literal ['$']] := by
  decide

theorem splitAlias_text (s : σ) {row : Row σ} (hlegible : Legible row) :
    Element.splitAlias (text s row) = .ok ((ofAlias row).element .select s) := by
  have hfind := findWhole_text s blocks_aliasPattern (by decide) hlegible
  rw [Element.splitAlias, hfind, ok_bind, ofAlias]
  cases hlocate : locate? Element.aliasPattern.blocks (whole row) with
  | some found =>
    simp only [map_some, capture_report]
    rfl
  | none =>
    have hkeys := map_key_tokens s 0 row
    rw [← tokens_text_zero hlegible s] at hkeys
    simp only [map_none]
    split
    · rename_i last before front hreverse
      have hlist : tokens (text s row) = (last :: before :: front).reverse := by
        rw [← hreverse, reverse_reverse]
      have halias : endsInAlias (keys row) = Element.isBareAlias before last := by
        rw [← hkeys, hlist, endsInAlias, map_reverse, reverse_reverse]
        rfl
      rw [halias]
      split
      · rename_i hbare
        have hquote : last.isQuote = false := by
          cases hquote : last.isQuote with
          | false => rfl
          | true =>
            obtain ⟨mark, htext, hmark⟩ := Search.exists_mark_of_isQuote hquote
            have hword : isAlphanumeric mark ∨ mark = '_' := by
              simp only [Element.isBareAlias, isIdentifier, htext, Bool.and_eq_true] at hbare
              simpa using hbare.1.1.1.1.2
            have hmarkWord := isWordChar_of_isQuoteMark hmark
            rcases hword with hword | rfl
            · simp [isWordChar, hword] at hmarkWord
            · exact absurd hmark (by decide)
        obtain ⟨expression, hslice, htrim, htext, hne⟩ :=
          splitLast_text s hlegible (by rw [hlist]; simp) hquote
        rw [hslice, ok_bind, htrim, htext]
        rfl
      · rfl
    · rename_i hshort
      have halias : endsInAlias (keys row) = false := by
        rw [← hkeys, endsInAlias, ← map_reverse]
        split
        · rename_i last before front hreverse
          obtain ⟨a, tail, ha, -, htail⟩ := map_eq_cons_iff.1 hreverse
          obtain ⟨b, rest, rfl, -, -⟩ := map_eq_cons_iff.1 htail
          exact absurd ha (hshort a b rest)
        · rfl
      rw [halias]
      rfl

theorem splitDirection_text (s : σ) {row : Row σ} (hlegible : Legible row) :
    Element.splitDirection (text s row) = .ok ((ofDirection row).element .orderBy s) := by
  have hkeys := map_key_tokens s 0 row
  rw [← tokens_text_zero hlegible s] at hkeys
  rw [Element.splitDirection, ofDirection, endsInDirection, ← hkeys, getLast?_map]
  cases hlast : (tokens (text s row)).getLast? with
  | none => rfl
  | some last =>
    have hword : ∀ text, (ofKey last.key).is text = last.is text := fun _ => rfl
    simp only [map_some, any_some, hword]
    split
    · rename_i hdirection
      have hplain : ∀ text : Text, (PatternBlock.literal text).Plain → last.is text →
          last.isQuote = false := fun _ => Search.isQuote_eq_false_of_is
      have hquote : last.isQuote = false := by
        rcases Bool.or_eq_true_iff.1 hdirection with his | his
        · exact hplain _ (by decide) his
        · exact hplain _ (by decide) his
      obtain ⟨expression, hslice, htrim, htext, hne⟩ := splitLast_text s hlegible hlast hquote
      rw [hslice, ok_bind, htrim, htext, element, if_pos ⟨rfl, hne⟩]
      rfl
    · rfl

theorem ofText_text (kind : ListKind) (s : σ) {row : Row σ} (hlegible : Legible row) :
    Element.ofText kind (text s row) = .ok ((ofRow kind row).element kind s) := by
  cases kind with
  | select => exact splitAlias_text s hlegible
  | orderBy => exact splitDirection_text s hlegible
  | groupBy => rfl
  | columns => rfl
  | values => rfl

end Item

namespace Row

/-! ## Cutting at commas -/

/-- The rows between the commas outside of parentheses, when so many are open before the row. -/
def splitCommas (depth : Nat) : Row σ → List (Row σ)
  | [] => [[]]
  | cell :: row =>
    if depth == 0 && cell.is [','] then [] :: splitCommas 0 row
    else (splitCommas (cell.depthAfter depth) row).modifyHead (cell :: ·)

theorem splitCommas_ne_nil (depth : Nat) (row : Row σ) : splitCommas depth row ≠ [] := by
  induction row generalizing depth with
  | nil => simp [splitCommas]
  | cons cell row ih =>
    rw [splitCommas]
    split
    · simp
    · simpa using ih _

theorem length_splitCommas_le (depth : Nat) (row : Row σ) :
    (splitCommas depth row).length ≤ row.length + 1 := by
  induction row generalizing depth with
  | nil => simp [splitCommas]
  | cons cell row ih =>
    rw [splitCommas]
    split
    · simpa using ih 0
    · simpa using Nat.le_succ_of_le (ih _)

/-- What a search for the next comma finds in a closed row with a comma behind it : the first
segment, and a comma between it and the other ones or else the last comma. -/
theorem stop?_comma {last : Cell σ} (hlast : last.is [',']) {depth : Nat} {row : Row σ}
    (hcloses : closes depth row) : ∃ segment segments stop,
      splitCommas depth row = segment :: segments ∧ stop.segment = segment ∧
      stop? [','] depth (row ++ [last]) = some stop ∧
      ((segments = [] ∧ row = segment ∧ stop.boundary = last ∧ stop.later = []) ∨
        ∃ rest, stop.later = rest ++ [last] ∧ row = segment ++ stop.boundary :: rest ∧
          closes 0 rest ∧ splitCommas 0 rest = segments) := by
  induction row generalizing depth with
  | nil =>
    have hdepth : (depth == 0) := hcloses
    exact ⟨[], [], ⟨[], last, []⟩, rfl, rfl, by simp [stop?, hdepth, hlast],
      .inl ⟨rfl, rfl, rfl, rfl⟩⟩
  | cons cell row ih =>
    rw [closes, Bool.and_eq_true_iff, Bool.not_eq_true'] at hcloses
    obtain ⟨hfree, hcloses⟩ := hcloses
    rw [splitCommas, cons_append, stop?]
    split
    · rename_i hcomma
      have hcell := (Bool.and_eq_true_iff.1 hcomma).2
      have hdepth : cell.depthAfter depth = 0 := by
        have htext := (Cell.is_iff.1 hcell).2
        have hzero : depth = 0 := by simpa using (Bool.and_eq_true_iff.1 hcomma).1
        simp [Cell.depthAfter, Cell.is, htext, hzero]
      rw [hdepth] at hcloses
      exact ⟨[], _, ⟨[], cell, row ++ [last]⟩, rfl, rfl, rfl, .inr ⟨row, rfl, rfl, hcloses, rfl⟩⟩
    · obtain ⟨segment, segments, stop, hsplit, rfl, hstop, hcases⟩ := ih hcloses
      refine ⟨cell :: stop.segment, segments, { stop with segment := cell :: stop.segment }, ?_,
        rfl, ?_, ?_⟩
      · rw [hsplit]
        rfl
      · rw [if_neg (by simpa using hfree), hstop]
        rfl
      · refine hcases.imp ?_ ?_
        · rintro ⟨hsegments, hrow, hboundary, hlater⟩
          exact ⟨hsegments, by rw [hrow], hboundary, hlater⟩
        · rintro ⟨rest, hlater, hrow, hrest, hsegments⟩
          exact ⟨rest, hlater, by rw [hrow]; rfl, hrest, hsegments⟩

/-! ## The texts of the elements -/

variable {before : Row σ}

/-- The index of the token of a cell by the offset where it stops. -/
theorem indexOfStop_tokens (s : σ) {row : Row σ} (hlegible : Legible row) {later : Row σ}
    {cell : Cell σ} (hrow : row = before ++ cell :: later) (hcell : cell.lexeme.isLiteral = false) :
    CommaList.indexOfStop (tokens s 0 row)
        ((text s before).byteSize + cell.lexeme.text.byteSize) = (keys before).length := by
  subst hrow
  have hlaid := laid_tokens (text s (before ++ cell :: later))
  rw [tokens_text_zero hlegible] at hlaid
  have hget : (tokens s 0 (before ++ cell :: later))[(keys before).length]? =
      some (cell.lexeme.tokenAt (text s before).byteSize) := by
    rw [tokens_append, tokens_cons, tokens_of_isLiteral_eq_false hcell, ← length_tokens s 0,
      getElem?_append_right (Nat.le_refl _), Nat.zero_add]
    simp
  exact hlaid.findIdx_stop hget

theorem blocks_elementPattern : CommaList.elementPattern.blocks =
    [.literal [','], .placeholder ['a'] none, .literal [',']] := by
  decide

/-- Behind the last comma there is no element. -/
theorem elementTexts_last (s : σ) (fuel : Nat) {last : Cell σ} (hlast : last.is [',']) :
    CommaList.elementTexts (text s (before ++ [last])) (tokens s 0 (before ++ [last]))
      (fuel + 1) (keys before).length = .ok [] := by
  have hsearch := search_tokens s blocks_elementPattern (by decide) [] before [last]
  have hnone : locate? CommaList.elementPattern.blocks [last] = none := by
    simp [blocks_elementPattern, locate?, take?, hlast, stop?]
  rw [hnone] at hsearch
  exact congrArg (· >>= _) hsearch

/-- An element runs up to the next comma, which opens the next one. -/
theorem elementTexts_cons (s : σ) (fuel : Nat) {wrapped : Row σ} (hlegible : Legible wrapped)
    {row : Row σ} {opening : Cell σ} (hwrapped : wrapped = before ++ opening :: row)
    (hopening : opening.is [',']) {stop : Stop σ} (hstop : stop? [','] 0 row = some stop) :
    CommaList.elementTexts (text s wrapped) (tokens s 0 wrapped) (fuel + 1)
        (keys before).length =
      (do
        let later ← CommaList.elementTexts (text s wrapped) (tokens s 0 wrapped) fuel
          (keys (before ++ opening :: stop.segment)).length
        return text s (trimEnd stop.segment) :: later) := by
  let found : Found σ :=
    ⟨[], ⟨opening :: (stop.segment ++ [stop.boundary]), [(['a'], stop.segment)], stop.later⟩⟩
  have hlocate : locate? CommaList.elementPattern.blocks (opening :: row) =
      some found := by
    simp [blocks_elementPattern, locate?, take?, hopening, hstop, found]
  obtain ⟨hrow, hboundary, -⟩ := eq_of_stop? hstop
  have hmiddle : wrapped = before ++ opening :: stop.segment ++ stop.boundary :: stop.later := by
    rw [hwrapped, hrow]
    simp
  have hsearch : search (text s wrapped) (tokens s 0 wrapped) CommaList.elementPattern
      (keys before).length = .ok (some (found.report s (text s before) (keys before).length)) := by
    have hsearch := search_tokens s blocks_elementPattern (by decide) [] before (opening :: row)
    rwa [← hwrapped, hlocate] at hsearch
  have hoffset : (found.report s (text s before) (keys before).length).stop =
      (text s (before ++ opening :: stop.segment)).byteSize +
        stop.boundary.lexeme.text.byteSize := by
    have hcells : found.taken.cells = opening :: stop.segment ++ [stop.boundary] := rfl
    rw [Found.report, hcells, body_concat]
    simp [found, Nat.add_assoc]
  rw [CommaList.elementTexts, hsearch, ok_bind]
  simp only [hoffset, capture_report, indexOfStop_tokens s hlegible hmiddle (is_iff.1 hboundary).1]
  rfl

/-- The texts of the elements are those of the segments, from any comma on. -/
theorem elementTexts_tokens (s : σ) {wrapped : Row σ} (hlegible : Legible wrapped) {last : Cell σ}
    (hlast : last.is [',']) (fuel : Nat) {row : Row σ} {opening : Cell σ}
    (hwrapped : wrapped = before ++ opening :: (row ++ [last])) (hopening : opening.is [','])
    (hcloses : closes 0 row) (hfuel : (splitCommas 0 row).length < fuel) :
    CommaList.elementTexts (text s wrapped) (tokens s 0 wrapped) fuel
        (keys before).length =
      .ok ((splitCommas 0 row).map fun segment => text s (trimEnd segment)) := by
  induction fuel generalizing before row opening with
  | zero => exact absurd hfuel (Nat.not_lt_zero _)
  | succ fuel ih =>
    obtain ⟨segment, segments, stop, hsplit, rfl, hstop, hcases⟩ := stop?_comma hlast hcloses
    rw [elementTexts_cons s fuel hlegible hwrapped hopening hstop, hsplit]
    rw [hsplit, length_cons] at hfuel
    rcases hcases with ⟨rfl, rfl, -, -⟩ | ⟨rest, hlater, hrow, hrest, rfl⟩
    · obtain ⟨fuel, rfl⟩ : ∃ n, fuel = n + 1 := ⟨fuel - 1, by simp at hfuel; omega⟩
      have hend : wrapped = before ++ opening :: stop.segment ++ [last] := by simpa using hwrapped
      rw [hend, elementTexts_last s fuel hlast]
      rfl
    · have hnext : wrapped = before ++ opening :: stop.segment ++
          stop.boundary :: (rest ++ [last]) := by
        rw [hwrapped, hrow]
        simp
      rw [ih hnext (eq_of_stop? hstop).2.1 hrest (by omega)]
      rfl

/-! ## Commas and segments -/

/-- The commas and the segments make up the row. -/
theorem exists_commas (depth : Nat) (row : Row σ) :
    ∃ (segment : Row σ) (rest : List (Cell σ × Row σ)),
      splitCommas depth row = segment :: rest.map Prod.snd ∧
      row = segment ++ rest.flatMap (fun entry => entry.1 :: entry.2) ∧
      ∀ entry ∈ rest, entry.1.is [','] := by
  induction row generalizing depth with
  | nil => exact ⟨[], [], rfl, rfl, by simp⟩
  | cons cell row ih =>
    rw [splitCommas]
    split
    · rename_i hcomma
      obtain ⟨segment, rest, hsplit, hrow, hrest⟩ := ih 0
      refine ⟨[], (cell, segment) :: rest, by rw [hsplit]; rfl, ?_, ?_⟩
      · rw [flatMap_cons, nil_append, cons_append, ← hrow]
      · exact forall_mem_cons.2 ⟨(Bool.and_eq_true_iff.1 hcomma).2, hrest⟩
    · obtain ⟨segment, rest, hsplit, hrow, hrest⟩ := ih (cell.depthAfter depth)
      exact ⟨cell :: segment, rest, by rw [hsplit]; rfl, by rw [cons_append, ← hrow], hrest⟩

theorem infix_of_mem_splitCommas {depth : Nat} {row segment : Row σ}
    (h : segment ∈ splitCommas depth row) : segment <:+: row := by
  obtain ⟨first, rest, hsplit, hrow, -⟩ := exists_commas depth row
  rw [hsplit, mem_cons] at h
  rcases h with rfl | h
  · exact ⟨[], _, hrow.symm⟩
  · obtain ⟨entry, hmem, rfl⟩ := List.mem_map.1 h
    obtain ⟨before, after, rfl⟩ := append_of_mem hmem
    refine ⟨first ++ before.flatMap (fun entry => entry.1 :: entry.2) ++ [entry.1],
      after.flatMap (fun entry => entry.1 :: entry.2), ?_⟩
    rw [hrow]
    simp

end Row

theorem mapM_eq_ok {α β ε : Type} {f : α → Except ε β} {g : α → β} {l : List α}
    (h : ∀ a ∈ l, f a = .ok (g a)) : l.mapM f = .ok (l.map g) := by
  induction l with
  | nil => rfl
  | cons a l ih =>
    rw [forall_mem_cons] at h
    rw [mapM_cons, h.1, ok_bind, ih h.2]
    rfl

namespace Row

theorem length_le_length_keys (row : Row σ) : row.length ≤ (keys row).length := by
  induction row with
  | nil => simp
  | cons cell row ih =>
    have hpos : 0 < cell.lexeme.keys.length := by
      rw [Lexeme.keys, length_map]
      exact length_pos_iff.2 (cell.lexeme.tokens_ne_nil 0)
    simp only [keys_cons, length_append, length_cons]
    omega

/-- The elements of a closed row behind some blanks, at every index. -/
theorem elementsOf_text (kind : BigQuery.ListKind) (s : σ) {lead : Text} (hlead : lead.Blank)
    {row : Row σ} (hlegible : Legible row) (hclosed : Closed row) :
    BigQuery.CommaList.elementsOf kind (lead ++ text s row) =
      .ok ((splitCommas 0 row).map fun segment =>
        (Item.ofRow kind (trimEnd segment)).element kind s) := by
  let comma : Cell σ := Cell.ofSymbol ',' (by decide)
  let opening : Cell σ := comma.spaced lead hlead
  have hinert : inert ',' := by decide
  have hwrapped : Legible (opening :: (row ++ [comma])) :=
    (hlegible.append_cons (isChain_singleton comma) hinert).cons hinert
  have htext : text s (opening :: (row ++ [comma])) = ',' :: (lead ++ text s row) ++ [','] := by
    simp [opening, Cell.spaced, comma, Cell.ofSymbol, Lexeme.text]
  have hstart : opening :: (row ++ [comma]) = [] ++ opening :: (row ++ [comma]) := rfl
  have htexts := elementTexts_tokens s hwrapped rfl
    ((tokens s 0 (opening :: (row ++ [comma]))).length + 1) hstart rfl hclosed (by
      have hsplit := length_splitCommas_le 0 row
      have hkeys := length_le_length_keys (opening :: (row ++ [comma]))
      rw [length_tokens]
      simp only [length_cons, length_append] at hkeys
      omega)
  rw [BigQuery.CommaList.elementsOf, ← htext, tokens_text_zero hwrapped]
  simp only [keys_nil, length_nil] at htexts
  rw [htexts, ok_bind, mapM_map]
  refine mapM_eq_ok fun segment hmem => ?_
  exact Item.ofText_text kind s
    (hlegible.of_isInfix (infix_of_mem_splitCommas hmem)).trimEnd

end Row

end Layout

end SqlScript
