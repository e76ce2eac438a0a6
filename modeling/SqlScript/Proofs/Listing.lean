import Mathlib.Algebra.Order.BigOperators.Group.List
import Mathlib.Algebra.Order.Group.Nat
import SqlScript.Proofs.RowList

/-!
# Lists with their clauses

A listing is a list of rows with the clauses before and behind it (`Layout.Listing`).
`Row.parse_text` says that the list of the text of a closed row is the listing of the row, at every
index. What a listing holds stands in its row, each part in a place of its own
(`Listing.weight_ofRow_le`), and can be put together again (`Listing.legible_ofRow`).
-/

namespace SqlScript

open List Option Layout.Row Layout.Item

namespace Layout

variable {σ : Type}

open BigQuery (ListKind CommaList)

/-- A list of rows and the clauses around it. -/
structure Listing (σ : Type) where
  lead : Part σ
  items : List (Item σ)
  tail : Part σ

/-- The list of texts at an index. -/
def Listing.commaList (kind : ListKind) (s : σ) (listing : Listing σ) : CommaList where
  lead := listing.lead.text s
  elements := listing.items.map (element kind s)
  tail := listing.tail.text s

/-- A word with a space behind it. -/
def Cell.spacedWord (t : Text) (h : isSmallWord t = true) : Cell σ :=
  (Cell.ofWord t h).spaced [' '] blank_space

/-- `distinct` and a space. -/
def distinctPart : Part σ :=
  .ofRow [.spacedWord "distinct".toList (by decide)]

/-- An `into` clause. -/
def intoPart (row : Row σ) : Part σ :=
  ⟨[' '], blank_space, [.spacedWord "into".toList (by decide)]⟩ ++ .ofRow row

/-- An `order by` clause. -/
def orderByPart (row : Row σ) : Part σ :=
  ⟨[' '], blank_space, [.spacedWord "order".toList (by decide),
    .spacedWord "by".toList (by decide)]⟩ ++ .ofRow row

/-- A row without the clauses before and behind it, and those. -/
structure Clauses (σ : Type) where
  lead : Part σ
  body : Row σ
  tail : Part σ

namespace Clauses

/-- The row without the clause that the pattern finds behind it. -/
def cutTail (pattern : Pattern) (tail : Row σ → Part σ) (row : Row σ) : Clauses σ :=
  match locate? pattern.blocks (whole row) with
  | some found =>
    ⟨∅, trimEnd (found.taken.get "a".toList), tail (trimEnd (found.taken.get "b".toList))⟩
  | none => ⟨∅, row, ∅⟩

/-- The clauses of a list. -/
def ofRow (kind : ListKind) (row : Row σ) : Clauses σ :=
  match kind with
  | .select =>
    match locate? CommaList.distinctPattern.blocks (whole row) with
    | some found =>
      { cutTail CommaList.intoPattern intoPart (trimEnd (found.taken.get "a".toList)) with
        lead := distinctPart }
    | none => cutTail CommaList.intoPattern intoPart row
  | .groupBy => cutTail CommaList.orderByPattern orderByPart row
  | .orderBy | .columns | .values => ⟨∅, row, ∅⟩

end Clauses

/-- The listing of a row. -/
def Listing.ofRow (kind : ListKind) (row : Row σ) : Listing σ where
  lead := (Clauses.ofRow kind row).lead
  items := (Row.splitCommas 0 (Clauses.ofRow kind row).body).map fun segment =>
    Item.ofRow kind (Row.trimEnd segment)
  tail := (Clauses.ofRow kind row).tail

theorem text_distinctPart (s : σ) : distinctPart.text s = "distinct ".toList :=
  rfl

theorem text_intoPart (s : σ) (row : Row σ) :
    (intoPart row).text s = " into ".toList ++ text s row := by
  rw [intoPart, Part.text_append, Part.text_ofRow]
  rfl

theorem text_orderByPart (s : σ) (row : Row σ) :
    (orderByPart row).text s = " order by ".toList ++ text s row := by
  rw [orderByPart, Part.text_append, Part.text_ofRow]
  rfl

namespace Clauses

theorem blocks_distinctPattern : CommaList.distinctPattern.blocks =
    [.literal ['^'], .literal "distinct".toList, .placeholder ['a'] none, .literal ['$']] := by
  decide

theorem blocks_intoPattern : CommaList.intoPattern.blocks =
    [.literal ['^'], .placeholder ['a'] none, .literal "into".toList, .placeholder ['b'] none,
      .literal ['$']] := by
  decide

theorem blocks_orderByPattern : CommaList.orderByPattern.blocks =
    [.literal ['^'], .placeholder ['a'] none, .literal "order".toList, .literal "by".toList,
      .placeholder ['b'] none, .literal ['$']] := by
  decide

theorem cutTail_body (pattern : Pattern) (tail : Row σ → Part σ) {row : Row σ}
    (hlegible : Legible row) (hclosed : Closed row) :
    Legible (cutTail pattern tail row).body ∧ Closed (cutTail pattern tail row).body := by
  rw [cutTail]
  split
  · rename_i found hlocate
    exact hlegible.get hlocate _
  · exact ⟨hlegible, hclosed⟩

/-- The body of a list is legible and closed if the list is. -/
theorem ofRow_body (kind : ListKind) {row : Row σ} (hlegible : Legible row)
    (hclosed : Closed row) : Legible (ofRow kind row).body ∧ Closed (ofRow kind row).body := by
  cases kind with
  | select =>
    rw [ofRow]
    split
    · rename_i found hlocate
      obtain ⟨hbody, hclosed⟩ := hlegible.get hlocate _
      exact cutTail_body _ _ hbody hclosed
    · exact cutTail_body _ _ hlegible hclosed
  | groupBy => exact cutTail_body _ _ hlegible hclosed
  | orderBy => exact ⟨hlegible, hclosed⟩
  | columns => exact ⟨hlegible, hclosed⟩
  | values => exact ⟨hlegible, hclosed⟩

/-- The clauses of the text of a row are those of the row. -/
theorem splitClauses_text (kind : ListKind) (s : σ) {row : Row σ} (hlegible : Legible row) :
    CommaList.splitClauses kind (text s row) =
      .ok ((ofRow kind row).lead.text s, text s (ofRow kind row).body,
        (ofRow kind row).tail.text s) := by
  have hinto : ∀ {body : Row σ}, Legible body →
      BigQuery.findWhole (text s body) CommaList.intoPattern = _ :=
    fun h => findWhole_text s blocks_intoPattern (by decide) h
  cases kind with
  | select =>
    have hdistinct := findWhole_text s blocks_distinctPattern (by decide) hlegible
    rw [CommaList.splitClauses, hdistinct, ok_bind, ofRow]
    cases hlocate : locate? CommaList.distinctPattern.blocks (whole row) with
    | some found =>
      have hbody := (hlegible.get hlocate "a".toList).1
      simp only [map_some, pure_bind, capture_report]
      rw [hinto hbody, ok_bind, cutTail]
      cases locate? CommaList.intoPattern.blocks
          (whole (trimEnd (found.taken.get "a".toList))) with
      | some found' =>
        simp only [map_some, capture_report, text_intoPart, text_distinctPart]
        rfl
      | none => rfl
    | none =>
      simp only [map_none, pure_bind]
      rw [hinto hlegible, ok_bind, cutTail]
      cases locate? CommaList.intoPattern.blocks (whole row) with
      | some found' =>
        simp only [map_some, capture_report, text_intoPart]
        rfl
      | none => rfl
  | groupBy =>
    have horder := findWhole_text s blocks_orderByPattern (by decide) hlegible
    rw [CommaList.splitClauses, horder, ok_bind, ofRow, cutTail]
    cases locate? CommaList.orderByPattern.blocks (whole row) with
    | some found =>
      simp only [map_some, capture_report, text_orderByPart]
      rfl
    | none => rfl
  | orderBy => rfl
  | columns => rfl
  | values => rfl

end Clauses

/-- The list of the text of a closed row is the listing of the row, at every index. -/
theorem Row.parse_text (kind : ListKind) (s : σ) {row : Row σ} (hlegible : Legible row)
    (hclosed : Closed row) :
    CommaList.parse kind (text s row) = .ok ((Listing.ofRow kind row).commaList kind s) := by
  obtain ⟨hbody, hclosed⟩ := Clauses.ofRow_body kind hlegible hclosed
  have helements := elementsOf_text kind s Text.blank_nil hbody hclosed
  rw [List.nil_append] at helements
  rw [CommaList.parse, Clauses.splitClauses_text kind s hlegible, ok_bind]
  simp only [helements, ok_bind]
  rw [Listing.commaList, Listing.ofRow, List.map_map]
  rfl

/-! ## Counting in lists -/

theorem Row.weight_whole (text : Text) (row : Row σ) : weight text (whole row) =
    (if ['^'] = text then 1 else 0) + weight text row + if ['$'] = text then 1 else 0 := by
  have hopening : (Cell.ofSymbol '^' (by decide) : Cell σ).is ['^'] := rfl
  have hclosing : (Cell.ofSymbol '$' (by decide) : Cell σ).is ['$'] := rfl
  rw [whole, weight_cons_is hopening, weight_append, weight_is hclosing]
  omega

/-- What a pattern for a whole text takes stands in the row, its marks aside. -/
theorem Row.weight_of_locate? {blocks : List PatternBlock} {row : Row σ} {found : Found σ}
    (h : locate? blocks (whole row) = some found) (text : Text) : weight text found.taken.cells ≤
      (if ['^'] = text then 1 else 0) + weight text row + if ['$'] = text then 1 else 0 := by
  rw [← weight_whole, (eq_of_locate? h).1]
  simp only [weight_append]
  omega

/-- The expression and the suffix of an element stand apart in its row. -/
theorem Item.weight_ofRow_le (kind : ListKind) (row : Row σ) (text : Text) :
    weight text (ofRow kind row).expression + weight text (ofRow kind row).suffix ≤
      weight text row := by
  have hlast : weight text (splitLast row).expression +
      weight text (splitLast row).suffix ≤ weight text row := by
    rcases eq_nil_or_concat row with rfl | ⟨init, cell, rfl⟩
    · exact Nat.le_refl 0
    · simp only [splitLast, concat_eq_append, dropLast_concat,
        getLast?_concat, weight_trimEnd, weight_append]
      exact Nat.le_refl _
  cases kind with
  | select =>
    rw [ofRow, ofAlias]
    split
    · rename_i found hlocate
      have hle := weight_of_locate? hlocate text
      have htakes := (eq_of_locate? hlocate).2
      rw [blocks_aliasPattern] at htakes
      obtain ⟨opening, _, hcells, hopening, a, as, _, _, rfl, hcaptures, -, has, b, closing, _, _,
        rfl, rfl, -, hclosing, rfl, rfl⟩ := htakes
      have hget : found.taken.get "a".toList = a ∧ found.taken.get "b".toList = b := by
        rw [Taken.get, Taken.get, hcaptures]
        exact ⟨rfl, rfl⟩
      simp only [hcells, weight_append, weight_cons_is hopening, weight_cons_is has,
        weight_is hclosing] at hle
      simp only [hget, weight_trimEnd]
      omega
    · split
      · exact hlast
      · exact Nat.le_refl _
  | orderBy =>
    rw [ofRow, ofDirection]
    split
    · exact hlast
    · exact Nat.le_refl _
  | groupBy => exact Nat.le_refl _
  | columns => exact Nat.le_refl _
  | values => exact Nat.le_refl _

theorem is_spacedWord (t : Text) (h : isSmallWord t) : (Cell.spacedWord t h : Cell σ).is t :=
  @Cell.is_ofWord σ t h

theorem weight_distinctPart (text : Text) : (distinctPart : Part σ).weight text =
    if "distinct".toList = text then 1 else 0 :=
  weight_is (is_spacedWord _ _) text

theorem weight_intoPart (text : Text) (row : Row σ) : (intoPart row).weight text =
    (if "into".toList = text then 1 else 0) + weight text row := by
  rw [intoPart, Part.weight_append, Part.weight_ofRow]
  exact congrArg (· + _) (weight_is (is_spacedWord _ _) text)

theorem weight_orderByPart (text : Text) (row : Row σ) : (orderByPart row).weight text =
    (if "order".toList = text then 1 else 0) + (if "by".toList = text then 1 else 0) +
      weight text row := by
  rw [orderByPart, Part.weight_append, Part.weight_ofRow, Part.weight,
    weight_cons_is (is_spacedWord _ _), weight_is (is_spacedWord _ _)]

namespace Clauses

theorem weight_cutTail_into_le (text : Text) (row : Row σ) :
    weight text (cutTail CommaList.intoPattern intoPart row).body +
      (cutTail CommaList.intoPattern intoPart row).tail.weight text ≤ weight text row := by
  rw [cutTail]
  split
  · rename_i found hlocate
    have hle := weight_of_locate? hlocate text
    have htakes := (eq_of_locate? hlocate).2
    rw [blocks_intoPattern] at htakes
    obtain ⟨opening, _, hcells, hopening, a, into, _, _, rfl, hcaptures, -, hinto, b, closing, _, _,
      rfl, rfl, -, hclosing, rfl, rfl⟩ := htakes
    have hget : found.taken.get "a".toList = a ∧ found.taken.get "b".toList = b := by
      rw [Taken.get, Taken.get, hcaptures]
      exact ⟨rfl, rfl⟩
    simp only [hcells, weight_append, weight_cons_is hopening, weight_cons_is hinto,
      weight_is hclosing] at hle
    simp only [hget, weight_intoPart, weight_trimEnd]
    omega
  · exact Nat.le_refl _

theorem weight_cutTail_orderBy_le (text : Text) (row : Row σ) :
    weight text (cutTail CommaList.orderByPattern orderByPart row).body +
      (cutTail CommaList.orderByPattern orderByPart row).tail.weight text ≤ weight text row := by
  rw [cutTail]
  split
  · rename_i found hlocate
    have hle := weight_of_locate? hlocate text
    have htakes := (eq_of_locate? hlocate).2
    rw [blocks_orderByPattern] at htakes
    obtain ⟨opening, _, hcells, hopening, a, order, _, _, rfl, hcaptures, -, horder, by_, _, rfl,
      hby, b, closing, _, _, rfl, rfl, -, hclosing, rfl, rfl⟩ := htakes
    have hget : found.taken.get "a".toList = a ∧ found.taken.get "b".toList = b := by
      rw [Taken.get, Taken.get, hcaptures]
      exact ⟨rfl, rfl⟩
    simp only [hcells, weight_append, weight_cons_is hopening, weight_cons_is horder,
      weight_cons_is hby, weight_is hclosing] at hle
    simp only [hget, weight_orderByPart, weight_trimEnd]
    omega
  · exact Nat.le_refl _

/-- The clauses of a list and its body stand apart in its row. -/
theorem weight_ofRow_le (kind : ListKind) (row : Row σ) (text : Text) :
    (ofRow kind row).lead.weight text + weight text (ofRow kind row).body +
      (ofRow kind row).tail.weight text ≤ weight text row := by
  cases kind with
  | select =>
    have hinto := weight_cutTail_into_le text (σ := σ)
    rw [ofRow]
    split
    · rename_i found hlocate
      have hle := weight_of_locate? hlocate text
      have htakes := (eq_of_locate? hlocate).2
      rw [blocks_distinctPattern] at htakes
      obtain ⟨opening, _, hcells, hopening, distinct, _, rfl, hdistinct, a, closing, _, _, rfl,
        hcaptures, -, hclosing, rfl, rfl⟩ := htakes
      have hget : found.taken.get "a".toList = a := by
        rw [Taken.get, hcaptures]
        rfl
      have hbody := hinto (trimEnd a)
      simp only [hcells, weight_append, weight_cons_is hopening,
        weight_cons_is hdistinct, weight_is hclosing] at hle
      simp only [hget, weight_distinctPart]
      rw [weight_trimEnd] at hbody
      omega
    · have hbody := hinto row
      rw [cutTail] at hbody ⊢
      split
      · rename_i hlocate
        rw [hlocate] at hbody
        simp only [Part.weight_empty] at hbody ⊢
        omega
      · simp
  | groupBy =>
    have hbody := weight_cutTail_orderBy_le text row
    rw [ofRow, cutTail] at *
    split
    · rename_i hlocate
      rw [hlocate] at hbody
      simp only [Part.weight_empty] at hbody ⊢
      omega
    · simp
  | orderBy => simp [ofRow]
  | columns => simp [ofRow]
  | values => simp [ofRow]

end Clauses

theorem Row.weight_splitCommas (text : Text) (depth : Nat) (row : Row σ) :
    ((splitCommas depth row).map (weight text)).sum +
        ((splitCommas depth row).length - 1) * (Part.comma : Part σ).weight text =
      weight text row := by
  induction row generalizing depth with
  | nil => simp [splitCommas]
  | cons cell row ih =>
    rw [splitCommas]
    split
    · rename_i hcomma
      have hcell := (Bool.and_eq_true_iff.1 hcomma).2
      have hweight : (Part.comma : Part σ).weight text = if [','] = text then 1 else 0 :=
        Part.weight_comma text
      obtain ⟨segment, segments, hsplit⟩ := exists_cons_of_ne_nil (splitCommas_ne_nil 0 row)
      have hrow := ih 0
      rw [hsplit] at hrow ⊢
      rw [weight_cons_is hcell, ← hrow, ← hweight]
      simp only [map_cons, sum_cons, length_cons, Nat.add_sub_cancel,
        weight_nil, Nat.add_mul, Nat.one_mul]
      omega
    · obtain ⟨segment, segments, hsplit⟩ :=
        exists_cons_of_ne_nil (splitCommas_ne_nil (cell.depthAfter depth) row)
      have hrow := ih (cell.depthAfter depth)
      rw [hsplit] at hrow ⊢
      rw [weight_cons, ← hrow]
      simp only [modifyHead_cons, map_cons, sum_cons, length_cons, weight_cons text cell segment]
      omega

/-- The parts of a listing stand apart in its row. -/
theorem Listing.weight_ofRow_le (kind : ListKind) (row : Row σ) (text : Text) :
    (ofRow kind row).lead.weight text +
      ((ofRow kind row).items.map fun item =>
        Row.weight text item.expression + Row.weight text item.suffix).sum +
      ((ofRow kind row).items.length - 1) * (Part.comma : Part σ).weight text +
      (ofRow kind row).tail.weight text ≤ Row.weight text row := by
  have hclauses := Clauses.weight_ofRow_le kind row text
  have hsplit := weight_splitCommas text 0 (Clauses.ofRow kind row).body
  have hitems : ((ofRow kind row).items.map fun item =>
      Row.weight text item.expression + Row.weight text item.suffix).sum ≤
        ((Row.splitCommas 0 (Clauses.ofRow kind row).body).map (Row.weight text)).sum := by
    rw [ofRow, List.map_map]
    refine sum_le_sum fun segment _ => ?_
    have hitem := Item.weight_ofRow_le kind (Row.trimEnd segment) text
    rwa [weight_trimEnd] at hitem
  have hlength : (ofRow kind row).items.length =
      (Row.splitCommas 0 (Clauses.ofRow kind row).body).length := by
    rw [ofRow, length_map]
  rw [hlength]
  simp only [ofRow] at hitems ⊢
  omega

/-! ## Putting a list together again -/

theorem Item.legible_ofRow (kind : ListKind) {row : Row σ} (h : Legible row) :
    Legible (ofRow kind row).expression ∧ Legible (ofRow kind row).suffix := by
  have hlast : Legible (splitLast row).expression ∧
      Legible (splitLast row).suffix := by
    refine ⟨(h.of_isInfix (List.dropLast_prefix row).isInfix).trimEnd, ?_⟩
    rw [splitLast]
    cases row.getLast? with
    | none => exact isChain_nil
    | some cell => exact isChain_singleton _
  have hwhole : Legible row ∧ Legible ([] : Row σ) := ⟨h, isChain_nil⟩
  cases kind with
  | select =>
    rw [ofRow, ofAlias]
    split
    · rename_i found hlocate
      exact ⟨(h.get hlocate _).1, (h.get hlocate _).1⟩
    · split
      · exact hlast
      · exact hwhole
  | orderBy =>
    rw [ofRow, ofDirection]
    split
    · exact hlast
    · exact hwhole
  | groupBy => exact hwhole
  | columns => exact hwhole
  | values => exact hwhole

/-- The part can stand before any legible part. -/
structure Part.Heads (part : Part σ) : Prop where
  legible : Legible part.row
  closes : part.Closes

/-- The part can stand behind any legible part. -/
structure Part.Trails (part : Part σ) : Prop where
  legible : Legible part.row
  opens : part.Opens

theorem heads_empty : (∅ : Part σ).Heads :=
  ⟨isChain_nil, nofun⟩

theorem trails_empty : (∅ : Part σ).Trails :=
  ⟨isChain_nil, .inr nofun⟩

theorem heads_distinctPart : (distinctPart : Part σ).Heads := by
  refine ⟨isChain_singleton _, fun cell hcell => ?_⟩
  cases hcell
  exact .inl fun _ => cons_ne_nil _ _

theorem trails_intoPart {row : Row σ} (h : Legible row) : (intoPart row).Trails := by
  refine ⟨Part.legible_append (isChain_singleton _) h (.inl fun cell hcell => ?_),
    .inl (cons_ne_nil _ _)⟩
  cases hcell
  exact .inl fun _ => cons_ne_nil _ _

theorem trails_orderByPart {row : Row σ} (h : Legible row) : (orderByPart row).Trails := by
  have hwords : Legible [(Cell.spacedWord "order".toList (by decide) : Cell σ),
      .spacedWord "by".toList (by decide)] :=
    isChain_pair.2 fun _ => .inl (cons_ne_nil _ _)
  refine ⟨Part.legible_append hwords h (.inl fun cell hcell => ?_), .inl (cons_ne_nil _ _)⟩
  cases hcell
  exact .inl fun _ => cons_ne_nil _ _

theorem Clauses.trails_cutTail (pattern : Pattern) {tail : Row σ → Part σ}
    (htail : ∀ {row}, Legible row → (tail row).Trails) {row : Row σ} (h : Legible row) :
    (cutTail pattern tail row).tail.Trails := by
  rw [cutTail]
  split
  · rename_i found hlocate
    exact htail (h.get hlocate _).1
  · exact trails_empty

theorem Clauses.legible_ofRow (kind : ListKind) {row : Row σ} (h : Legible row) :
    (ofRow kind row).lead.Heads ∧ (ofRow kind row).tail.Trails := by
  cases kind with
  | select =>
    rw [ofRow]
    split
    · rename_i found hlocate
      exact ⟨heads_distinctPart, trails_cutTail _ trails_intoPart (h.get hlocate _).1⟩
    · refine ⟨?_, trails_cutTail _ trails_intoPart h⟩
      rw [cutTail]
      split <;> exact heads_empty
  | groupBy =>
    refine ⟨?_, trails_cutTail _ trails_orderByPart h⟩
    rw [ofRow, cutTail]
    split <;> exact heads_empty
  | orderBy => exact ⟨heads_empty, trails_empty⟩
  | columns => exact ⟨heads_empty, trails_empty⟩
  | values => exact ⟨heads_empty, trails_empty⟩

/-- The clauses and the elements of a listing are legible. -/
theorem Listing.legible_ofRow (kind : ListKind) {row : Row σ} (h : Row.Legible row)
    (hclosed : Row.Closed row) : (ofRow kind row).lead.Heads ∧ (ofRow kind row).tail.Trails ∧
      ∀ item ∈ (ofRow kind row).items, Row.Legible item.expression ∧ Row.Legible item.suffix := by
  obtain ⟨hlead, htail⟩ := Clauses.legible_ofRow kind h
  refine ⟨hlead, htail, fun item hitem => ?_⟩
  obtain ⟨segment, hmem, rfl⟩ := List.mem_map.1 hitem
  have hbody := (Clauses.ofRow_body kind h hclosed).1
  exact Item.legible_ofRow kind (hbody.of_isInfix (infix_of_mem_splitCommas hmem)).trimEnd

end Layout

end SqlScript
