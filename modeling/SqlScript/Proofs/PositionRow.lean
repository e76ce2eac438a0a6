import SqlScript.BigQuery.Position
import SqlScript.Proofs.Halting
import SqlScript.Proofs.KeySearch
import SqlScript.Proofs.Relisting

/-!
# References by position in rows

Whether an element of a list is a column, whether it has the tokens of a select expression and
whether it is found there as a pattern is told by the keys of the tokens, so each element of a row
becomes the same reference at every index (`Row.exists_reference`).
-/

namespace SqlScript

open List Layout.Row Layout.Listing BigQuery.Position Layout.Cell Token

namespace Layout

open BigQuery

variable {σ : Type}

/-! ## Elements by their keys -/

/-- Whether the tokens with the keys are a column of a table. -/
def isColumnKeys : List (Text × Bool) → Bool
  | [table, dot, column] =>
    (ofKey table).isIdentifier && dot.1 == ['.'] && (ofKey column).isIdentifier
  | _ => false

theorem isColumn_eq (element : Element) :
    element.isColumn = isColumnKeys ((tokens element.expression).map key) := by
  rw [Element.isColumn]
  rcases tokens element.expression with _ | ⟨table, _ | ⟨dot, _ | ⟨column, _ | ⟨next, rest⟩⟩⟩⟩ <;>
    rfl

/-- Whether the keys are those of the same tokens, up to ASCII case. -/
def sameKeys (a b : List (Text × Bool)) : Bool :=
  a.map (·.1.toLowerAscii) == b.map (·.1.toLowerAscii)

theorem sameTokens_eq (a b : Text) :
    sameTokens a b = sameKeys ((tokens a).map key) ((tokens b).map key) := by
  rw [sameKeys, map_map, map_map]
  rfl

theorem findIdx?_eq_of_forall {α : Type} {p q : α → Bool} {l : List α} (h : ∀ a ∈ l, p a = q a) :
    l.findIdx? p = l.findIdx? q := by
  induction l with
  | nil => rfl
  | cons a l ih =>
    rw [forall_mem_cons] at h
    rw [findIdx?_cons, findIdx?_cons, h.1, ih h.2]

theorem firstIndex?_map {α : Type} {test : Text → Except Error Bool} {f : α → Text} {p : α → Bool}
    {l : List α} (h : ∀ a ∈ l, test (f a) = .ok (p a)) :
    firstIndex? test (l.map f) = .ok (l.findIdx? p) := by
  induction l with
  | nil => rfl
  | cons a l ih =>
    rw [forall_mem_cons] at h
    rw [map_cons, firstIndex?, h.1, ok_bind, ih h.2, findIdx?_cons]
    cases p a <;> rfl

/-! ## References -/

namespace Row

/-- Looking for an expression as a pattern never fails. -/
theorem exists_indexByPattern_text (expression : Text) (candidates : List Text) :
    ∃ index, indexByPattern? expression candidates = .ok index := by
  rw [indexByPattern?]
  cases hcompile : Pattern.compile expression with
  | error error => exact ⟨none, rfl⟩
  | ok pattern =>
    induction candidates with
    | nil => exact ⟨none, rfl⟩
    | cons t candidates ih =>
      obtain ⟨found, hfound, -⟩ := Matcher.exists_run (laid_tokens t)
        (Pattern.sound_of_compile hcompile) ((SqlScript.tokens t).drop 0) rfl
      obtain ⟨index, hindex⟩ := ih
      have hfind : findClause t pattern 0 = .ok found := hfound
      simp only [firstIndex?, hfind, ok_bind, hindex]
      cases found <;> exact ⟨_, rfl⟩

/-- An expression is looked for as a pattern in the same way at every index. -/
theorem exists_indexByPattern {expression : Row σ} (hlegible : Legible expression)
    {candidates : List (Row σ)} (hcandidates : ∀ row ∈ candidates, Legible row) :
    ∃ index, ∀ s, indexByPattern? (text s expression) (candidates.map (text s)) = .ok index := by
  by_cases hone : Subsingleton σ
  · rcases isEmpty_or_nonempty σ with hnone | ⟨⟨s⟩⟩
    · exact ⟨none, fun s => isEmptyElim s⟩
    · obtain ⟨index, hindex⟩ := exists_indexByPattern_text (text s expression)
        (candidates.map (text s))
      exact ⟨index, fun s' => Subsingleton.elim s s' ▸ hindex⟩
  rcases exists_compile hone hlegible with ⟨blocks, hfree, hcompile⟩ | herror
  · refine ⟨candidates.findIdx? fun row => Search.finds blocks ((keys row).map ofKey), fun s => ?_⟩
    rw [indexByPattern?, hcompile s]
    refine firstIndex?_map fun row hrow => ?_
    have hpattern : ∀ block ∈ (Pattern.mk (text s expression) blocks).blocks,
        block.Unconstrained := hfree
    obtain ⟨found, hfound, hsome⟩ := exists_findClause_text (hcandidates row hrow) s hpattern
    rw [hfound, ok_bind, hsome]
    rfl
  · refine ⟨none, fun s => ?_⟩
    obtain ⟨error, hcompile⟩ := herror s
    rw [indexByPattern?, hcompile]

end Row

/-- A number. -/
def numberCell (n : Nat) : Cell σ :=
  .ofWord (toString n).toList (isSmallWord_toString n)

/-- What takes the place of an expression : the position after the index, or the expression. -/
def placed (index : Option Nat) (expression : Row σ) : Row σ :=
  match index with
  | some index => [numberCell (index + 1)]
  | none => expression

/-- An element has the same reference at every index. -/
theorem Row.exists_reference {expression : Row σ} (hlegible : Legible expression)
    {candidates : List (Row σ)} (hcandidates : ∀ row ∈ candidates, Legible row) :
    ∃ index, ∀ (s : σ) (select : CommaList) (suffix : Text),
      select.elements.map (·.expression) = candidates.map (text s) →
      reference select ⟨text s expression, suffix⟩ = .ok (text s (placed index expression)) := by
  have hcolumn : ∀ s suffix, Element.isColumn ⟨text s expression, suffix⟩ =
      isColumnKeys (keys expression) := fun s suffix => by
    rw [isColumn_eq, map_key_tokens_text_zero hlegible]
  cases hkind : isColumnKeys (keys expression) with
  | true =>
    refine ⟨none, fun s select suffix _ => ?_⟩
    rw [reference, hcolumn, hkind]
    rfl
  | false =>
    have hsame : ∀ s, (candidates.map (text s)).findIdx? (sameTokens · (text s expression)) =
        candidates.findIdx? fun row => sameKeys (keys row) (keys expression) := by
      intro s
      rw [findIdx?_map]
      refine findIdx?_eq_of_forall fun row hrow => ?_
      rw [Function.comp_apply, sameTokens_eq, map_key_tokens_text_zero hlegible,
        map_key_tokens_text_zero (hcandidates row hrow)]
    obtain ⟨index, hindex⟩ := exists_indexByPattern hlegible hcandidates
    refine ⟨(candidates.findIdx? fun row => sameKeys (keys row) (keys expression)).or index,
      fun s select suffix hselect => ?_⟩
    rw [reference, hcolumn, hkind]
    simp only [hselect, hsame s]
    cases candidates.findIdx? fun row => sameKeys (keys row) (keys expression) with
    | some i => simp [pure, Except.pure, placed, numberCell, ofWord, Lexeme.text]
    | none =>
      have hcandidate : indexByPattern? (text s expression) (candidates.map (text s)) =
          .ok index := hindex s
      simp only [hcandidate, ok_bind, Option.none_or]
      cases index with
      | some i => simp [pure, Except.pure, placed, numberCell, ofWord, Lexeme.text]
      | none => rfl

/-! ## The elements of a list -/

/-- The suffix of an element as it is printed. -/
def suffixPart (kind : ListKind) (item : Item σ) : Part σ :=
  if kind = .orderBy ∧ item.suffix ≠ [] then ⟨[' '], blank_space, item.suffix⟩
  else .ofRow item.suffix

/-- The element with its expression replaced. -/
def referencePart (kind : ListKind) (index : Option Nat) (item : Item σ) : Part σ :=
  .ofRow (placed index item.expression) ++ suffixPart kind item

theorem text_suffixPart (kind : ListKind) (s : σ) (item : Item σ) :
    (suffixPart kind item).text s = (item.element kind s).suffix := by
  rw [suffixPart, Item.element]
  split <;> rfl

theorem row_suffixPart (kind : ListKind) (item : Item σ) :
    (suffixPart kind item).row = item.suffix := by
  rw [suffixPart]
  split <;> rfl

/-- Outside of select lists a suffix is set off by a space. -/
theorem opens_suffixPart {kind : ListKind} (hkind : kind ≠ .select) (row : Row σ) :
    (suffixPart kind (Item.ofRow kind row)).Opens := by
  cases kind with
  | select => exact absurd rfl hkind
  | orderBy =>
    rw [suffixPart]
    split
    · exact .inl (cons_ne_nil _ _)
    · rename_i hnil
      have hsuffix : (Item.ofRow .orderBy row).suffix = [] := by simpa using hnil
      exact .inr (by simp [Part.ofRow, hsuffix])
  | groupBy => exact .inr (fun _ hnone => by cases hnone)
  | columns => exact .inr (fun _ hnone => by cases hnone)
  | values => exact .inr (fun _ hnone => by cases hnone)

theorem legible_placed (index : Option Nat) {expression : Row σ} (h : Legible expression) :
    Legible (placed index expression) := by
  cases index with
  | some index => exact isChain_singleton _
  | none => exact h

theorem legible_referencePart {kind : ListKind} (index : Option Nat) {item : Item σ}
    (hitem : Legible item.expression ∧ Legible item.suffix)
    (hopens : (suffixPart kind item).Opens) : Legible (referencePart kind index item).row := by
  refine Part.legible_append (legible_placed index hitem.1) ?_ (.inr hopens)
  rw [row_suffixPart]
  exact hitem.2

theorem weight_placed_le {word : Text} (h : word.head?.any Char.isDigit = false)
    (index : Option Nat) (expression : Row σ) :
    weight word (placed index expression) ≤ weight word expression := by
  cases index with
  | none => exact Nat.le_refl _
  | some index =>
    have hne : (toString (index + 1)).toList ≠ word := by
      rintro rfl
      obtain ⟨hne, hdigits⟩ := digits_toString (index + 1)
      obtain ⟨c, t, hcons⟩ := exists_cons_of_ne_nil hne
      rw [hcons] at h hdigits
      rw [head?_cons, Option.any_some, hdigits c mem_cons_self] at h
      exact absurd h (by decide)
    have hcell : (numberCell (index + 1) : Cell σ).is (toString (index + 1)).toList :=
      is_ofWord _ _
    rw [placed, weight_is hcell, if_neg hne]
    exact Nat.zero_le _

theorem weight_referencePart_le {word : Text} (h : word.head?.any Char.isDigit = false)
    (kind : ListKind) (index : Option Nat) (item : Item σ) :
    (referencePart kind index item).weight word ≤
      weight word item.expression + weight word item.suffix := by
  have hexpression := weight_placed_le h index item.expression
  have hsuffix : (suffixPart kind item).weight word = weight word item.suffix :=
    congrArg (weight word) (row_suffixPart kind item)
  rw [referencePart, Part.weight_append, Part.weight_ofRow, hsuffix]
  omega

/-- An element of a list becomes the same part at every index. -/
theorem exists_referencePart (kind : ListKind) {select : Row σ}
    (hselect : Legible select ∧ Closed select) {item : Item σ}
    (hitem : Legible item.expression) : ∃ index, ∀ s, (do
      return (← reference ((ofRow .select select).commaList .select s)
        (item.element kind s)) ++ (item.element kind s).suffix) =
      (.ok ((referencePart kind index item).text s) : Except Error Text) := by
  obtain ⟨-, -, hcandidates⟩ := legible_ofRow .select hselect.1 hselect.2
  have hlegible : ∀ row ∈ (ofRow .select select).items.map Item.expression,
      Legible row := by simpa using fun item hitem => (hcandidates item hitem).1
  obtain ⟨index, hindex⟩ := exists_reference hitem hlegible
  refine ⟨index, fun s => ?_⟩
  have hexpressions : ((ofRow .select select).commaList .select s).elements.map
      (·.expression) = ((ofRow .select select).items.map Item.expression).map
        (text s) := by
    rw [commaList, map_map, map_map]
    rfl
  have helement : item.element kind s =
    ⟨text s item.expression, (item.element kind s).suffix⟩ := rfl
  rw [helement, hindex s _ _ hexpressions, ok_bind, referencePart, Part.text_append,
    text_suffixPart]
  rfl

/-- A list of references is the same list of parts at every index. -/
theorem exists_converted (kind : ListKind) {select list : Row σ}
    (hselect : Legible select ∧ Closed select)
    (hlist : Legible list ∧ Closed list) : ∃ parts,
    Forall₂ (fun item part => ∃ index, part = referencePart kind index item)
      (ofRow kind list).items parts ∧
    ∀ s, converted kind ((ofRow .select select).commaList .select s)
      (text s list) = .ok (((ofRow kind list).relisted parts).text s) := by
  obtain ⟨-, -, hitems⟩ := legible_ofRow kind hlist.1 hlist.2
  have hone : ∀ item ∈ (ofRow kind list).items, ∃ part,
      (∃ index, part = referencePart kind index item) ∧ ∀ s, (do
        return (← reference ((ofRow .select select).commaList .select s)
          (item.element kind s)) ++ (item.element kind s).suffix) =
        (.ok (part.text s) : Except Error Text) := by
    intro item hitem
    obtain ⟨index, hindex⟩ := exists_referencePart kind hselect (hitems item hitem).1
    exact ⟨_, ⟨index, rfl⟩, hindex⟩
  obtain ⟨parts, hparts, hmap⟩ := exists_mapM_text hone
  refine ⟨parts, hparts, fun s => ?_⟩
  have helements : ((ofRow kind list).commaList kind s).elements =
    (ofRow kind list).items.map (Item.element kind s) := rfl
  rw [converted, parse_text kind s hlist.1 hlist.2, ok_bind, helements, mapM_map]
  simp only [Function.comp_def, hmap s, ok_bind]
  rw [text_relisted]
  rfl

/-! ## How a list ends -/

namespace Row

/-- The text of the last lexeme, in small letters. -/
def lastText (row : Row σ) : Option Text :=
  row.getLast?.map (·.lexeme.text.toLowerAscii)

theorem lastText_concat (row : Row σ) (cell : Cell σ) :
    lastText (row ++ [cell]) = some cell.lexeme.text.toLowerAscii := by
  rw [lastText, getLast?_concat]
  rfl

theorem lastText_append_of_ne_nil (a : Row σ) {b : Row σ} (h : b ≠ []) :
    lastText (a ++ b) = lastText b := by
  rw [lastText, getLast?_append_of_ne_nil _ h, lastText]

theorem lastText_trimEnd (row : Row σ) : lastText (trimEnd row) = lastText row := by
  rcases eq_nil_or_concat row with rfl | ⟨init, cell, rfl⟩
  · rfl
  · rw [concat_eq_append, trimEnd, mapLast_concat, lastText_concat, lastText_concat]
    rfl

theorem trimEnd_ne_nil {row : Row σ} (h : row ≠ []) : trimEnd row ≠ [] := by
  obtain ⟨init, cell, rfl⟩ := (eq_nil_or_concat row).resolve_left h
  rw [concat_eq_append, trimEnd, mapLast_concat]
  exact append_ne_nil_of_right_ne_nil _ (cons_ne_nil _ _)

/-- The last part of a row that does not end in the word does not end in it either. -/
theorem lastText_ne_of_isSuffix {a b : Row σ} (h : a <:+ b) {word : Text}
    (hb : lastText b ≠ some word) : lastText a ≠ some word := by
  obtain ⟨front, rfl⟩ := h
  by_cases hnil : a = []
  · rw [hnil]
    exact Option.some_ne_none _ |>.symm
  · rwa [lastText_append_of_ne_nil front hnil] at hb

end Row

namespace Part

/-- The part does not end in a `by` with nothing behind it. -/
def Settled (part : Part σ) : Prop :=
  ∀ cell ∈ part.row.getLast?, cell.lexeme.text.toLowerAscii = "by".toList → ∀ s, cell.gap s ≠ []

theorem settled_of_lastText {part : Part σ} (h : lastText part.row ≠ some "by".toList) :
    part.Settled := by
  intro cell hcell hby
  refine absurd ?_ h
  rw [lastText, Option.mem_def.1 hcell, ← hby]
  rfl

theorem Settled.append {a b : Part σ} (hb : b.Settled) (ha : b.row = [] → a.Settled) :
    (a ++ b).Settled := by
  by_cases hrow : a.row = []
  · rwa [append_of_row_eq_nil hrow]
  · rw [append_of_row_ne_nil hrow]
    by_cases hnil : b.row = []
    · obtain ⟨init, last, hlast⟩ := (eq_nil_or_concat a.row).resolve_left hrow
      rw [concat_eq_append] at hlast
      intro cell hcell hby s
      simp only [hnil, hlast, append_nil, mapLast_concat, getLast?_concat,
        Option.mem_some_iff] at hcell
      subst hcell
      have hgap := ha hnil last (by rw [hlast, getLast?_concat]; rfl) hby s
      simp [padBlank, pad, hgap]
    · intro cell hcell
      refine hb cell ?_
      rwa [getLast?_append_of_ne_nil _ hnil] at hcell

theorem row_append_ne_nil {a b : Part σ} (h : a.row ≠ [] ∨ b.row ≠ []) : (a ++ b).row ≠ [] := by
  intro hnil
  have hlexemes : (a ++ b).lexemes = [] := by rw [lexemes, hnil]; rfl
  rw [lexemes_append, append_eq_nil_iff, lexemes, lexemes, map_eq_nil_iff,
    map_eq_nil_iff] at hlexemes
  exact h.elim (· hlexemes.1) (· hlexemes.2)

end Part

/-- An element settles what it does not leave to its expression. -/
theorem settled_referencePart (kind : ListKind) (index : Option Nat) {item : Item σ}
    (hsuffix : lastText item.suffix ≠ some "by".toList)
    (hexpression : item.suffix = [] → lastText item.expression ≠ some "by".toList) :
    (referencePart kind index item).Settled := by
  refine .append (Part.settled_of_lastText (by rwa [row_suffixPart])) fun hnil => ?_
  rw [row_suffixPart] at hnil
  refine Part.settled_of_lastText ?_
  cases index with
  | none => exact hexpression hnil
  | some index =>
    intro hby
    obtain ⟨hne, hdigits⟩ := digits_toString (index + 1)
    have hnumber : (numberCell (index + 1) : Cell σ).is _ := is_ofWord _ _
    have htext : (toString (index + 1)).toList = "by".toList :=
      (is_iff.1 hnumber).2.symm.trans (Option.some.inj hby)
    rw [htext] at hdigits
    exact absurd (hdigits 'b' (by decide)) (by decide)

/-- An element of a list ends as its row does. -/
theorem Item.lastText_ofRow {kind : ListKind} (hkind : kind = .groupBy ∨ kind = .orderBy)
    (row : Row σ) :
    ((Item.ofRow kind row).suffix = [] ∧ (Item.ofRow kind row).expression = row) ∨
      ((Item.ofRow kind row).suffix ≠ [] ∧
        lastText (Item.ofRow kind row).suffix = lastText row) := by
  rcases hkind with rfl | rfl
  · exact .inl ⟨rfl, rfl⟩
  · rw [Item.ofRow, Item.ofDirection]
    split
    · rename_i hdirection
      rcases eq_nil_or_concat row with rfl | ⟨init, cell, rfl⟩
      · exact absurd hdirection (by simp [Item.endsInDirection])
      · rw [concat_eq_append, lastText_concat, Item.splitLast, getLast?_concat]
        exact .inr ⟨cons_ne_nil _ _, rfl⟩
    · exact .inl ⟨rfl, rfl⟩

section Ends

variable {kind : ListKind} (hkind : kind = .groupBy ∨ kind = .orderBy)

include hkind

theorem settled_reference_segment (index : Option Nat) {segment : Row σ}
    (h : lastText segment ≠ some "by".toList) :
    (referencePart kind index (Item.ofRow kind (trimEnd segment))).Settled := by
  rw [← lastText_trimEnd] at h
  rcases Item.lastText_ofRow hkind (trimEnd segment) with
    ⟨hsuffix, hexpression⟩ | ⟨hne, hsuffix⟩
  · refine settled_referencePart kind index (by rw [hsuffix]; nofun) fun _ => ?_
    rwa [hexpression]
  · exact settled_referencePart kind index (by rwa [hsuffix]) fun hnil => absurd hnil hne

theorem reference_segment_ne_nil (index : Option Nat) {segment : Row σ} (h : segment ≠ []) :
    (referencePart kind index (Item.ofRow kind (trimEnd segment))).row ≠ [] := by
  refine Part.row_append_ne_nil ?_
  rw [row_suffixPart]
  rcases Item.lastText_ofRow hkind (trimEnd segment) with
    ⟨-, hexpression⟩ | ⟨hne, -⟩
  · refine .inl ?_
    cases index with
    | some index => exact cons_ne_nil _ _
    | none =>
      rw [placed, Part.ofRow, hexpression]
      exact trimEnd_ne_nil h
  · exact .inr hne

/-- The elements of a list, printed one after another, end as the list does. -/
theorem settled_join {parts : List (Part σ)} : ∀ {segment : Row σ}
    {rest : List (Cell σ × Row σ)},
    Forall₂ (fun segment part => ∃ index, part =
      referencePart kind index (Item.ofRow kind (trimEnd segment)))
      (segment :: rest.map Prod.snd) parts →
    lastText (segment ++ rest.flatMap fun entry => entry.1 :: entry.2) ≠ some "by".toList →
    (Part.join parts).Settled := by
  induction parts with
  | nil => intro segment rest h; cases h
  | cons part parts ih =>
    intro segment rest h hlast
    obtain ⟨⟨index, rfl⟩, hparts⟩ := forall₂_cons.1 h
    cases rest with
    | nil =>
      cases hparts
      exact settled_reference_segment hkind index (by simpa using hlast)
    | cons entry rest =>
      obtain ⟨next, parts, -, -, rfl⟩ := forall₂_cons_left_iff.1 hparts
      have hcomma : (Part.comma : Part σ).Settled :=
        Part.settled_of_lastText (show some [','] ≠ some "by".toList by decide)
      refine .append (ih hparts ?_) fun _ => .append hcomma fun hnil => ?_
      · refine lastText_ne_of_isSuffix ?_ hlast
        refine IsSuffix.trans ?_ (suffix_append segment _)
        exact suffix_cons _ _
      · exact absurd hnil (cons_ne_nil _ _)

theorem join_row_ne_nil {parts : List (Part σ)} {segment : Row σ} {rest : List (Cell σ × Row σ)}
    (h : Forall₂ (fun segment part => ∃ index, part =
      referencePart kind index (Item.ofRow kind (trimEnd segment)))
      (segment :: rest.map Prod.snd) parts)
    (hne : segment ++ (rest.flatMap fun entry => entry.1 :: entry.2) ≠ []) :
    (Part.join parts).row ≠ [] := by
  obtain ⟨part, parts, ⟨index, rfl⟩, hparts, rfl⟩ := forall₂_cons_left_iff.1 h
  cases rest with
  | nil =>
    cases hparts
    exact reference_segment_ne_nil hkind index (by simpa using hne)
  | cons entry rest =>
    obtain ⟨next, parts, -, -, rfl⟩ := forall₂_cons_left_iff.1 hparts
    exact Part.row_append_ne_nil (.inl (Part.row_append_ne_nil (.inr (cons_ne_nil _ _))))

end Ends

/-- In a row without `$` an `order by` clause runs to the end. -/
theorem Clauses.get_isSuffix {row : Row σ} {found : Found σ}
    (h : locate? CommaList.orderByPattern.blocks (whole row) = some found)
    (hdollar : weight ['$'] row = 0) : found.taken.get "b".toList <:+ row := by
  obtain ⟨hwhole, htakes⟩ := eq_of_locate? h
  rw [Clauses.blocks_orderByPattern] at htakes
  obtain ⟨opening, _, hcells, hopening, a, order, _, _, rfl, hcaptures, -, horder, by_, _, rfl,
    hby, b, closing, _, _, rfl, rfl, -, hclosing, rfl, rfl⟩ := htakes
  have hget : found.taken.get "b".toList = b := by
    rw [Taken.get, hcaptures]
    rfl
  have hsplit : ofSymbol '^' (by decide) :: row ++ [ofSymbol '$' (by decide)] =
      found.front ++ opening :: (a ++ [order, by_]) ++ b ++ closing :: found.taken.later := by
    rw [whole, hcells] at hwhole
    simpa using hwhole
  rw [hget]
  rcases eq_nil_or_concat found.taken.later with hnil | ⟨init, last, hlater⟩
  · rw [hnil] at hsplit
    obtain ⟨hrow, -⟩ := append_inj' hsplit rfl
    obtain ⟨first, front, hfront⟩ := exists_cons_of_ne_nil
      (append_ne_nil_of_right_ne_nil found.front (cons_ne_nil opening (a ++ [order, by_])))
    rw [hfront, cons_append, cons.injEq] at hrow
    exact ⟨front, hrow.2.symm⟩
  · -- a `$` before the last one would stand in the row
    have hinner : ofSymbol '^' (by decide) :: row ++ [ofSymbol '$' (by decide)] =
        (found.front ++ opening :: (a ++ [order, by_]) ++ b ++ closing :: init) ++ [last] := by
      rw [hsplit, hlater]
      simp
    obtain ⟨hrow, -⟩ := append_inj' hinner rfl
    have hcount := congrArg (weight ['$']) hrow
    have hcaret : (ofSymbol '^' (by decide) : Cell σ).is ['^'] := rfl
    rw [weight_cons_is hcaret, hdollar, weight_append, weight_cons_is hclosing,
      if_neg (by decide), if_pos rfl] at hcount
    omega

section Ends

variable {kind : ListKind} (hkind : kind = .groupBy ∨ kind = .orderBy)

include hkind

/-- The clauses of a list : none, or an `order by` clause that runs to the end. -/
theorem Clauses.ofRow_cases {row : Row σ} (hdollar : weight ['$'] row = 0) :
    ofRow kind row = ⟨∅, row, ∅⟩ ∨
      ∃ b, b <:+ row ∧ (ofRow kind row).tail = orderByPart (trimEnd b) := by
  rcases hkind with rfl | rfl
  · rw [ofRow, cutTail]
    cases hlocate : locate? CommaList.orderByPattern.blocks (whole row) with
    | none => exact .inl rfl
    | some found => exact .inr ⟨_, get_isSuffix hlocate hdollar, rfl⟩
  · exact .inl rfl

/-- A list of references ends as the list does. -/
theorem settled_relisted {row : Row σ} (hne : row ≠ []) (hdollar : weight ['$'] row = 0)
    (hlast : lastText row ≠ some "by".toList) {parts : List (Part σ)}
    (hparts : Forall₂ (fun item part => ∃ index, part = referencePart kind index item)
      (ofRow kind row).items parts) :
    ((ofRow kind row).relisted parts).row ≠ [] ∧ ((ofRow kind row).relisted parts).Settled := by
  rcases Clauses.ofRow_cases hkind hdollar with hclauses | ⟨b, hb, htail⟩
  · obtain ⟨segment, rest, hsplit, hrow, -⟩ := exists_commas 0 row
    rw [ofRow, hclauses, hsplit, forall₂_map_left_iff] at hparts
    have hjoin : (ofRow kind row).relisted parts = ∅ ++ Part.join parts ++ ∅ := by
      rw [relisted, ofRow, hclauses]
    have hempty : (∅ : Part σ).Settled := fun _ hnone => by cases hnone
    rw [hrow] at hne hlast
    rw [hjoin]
    refine ⟨Part.row_append_ne_nil (.inl (Part.row_append_ne_nil (.inr ?_))), ?_⟩
    · exact join_row_ne_nil hkind hparts hne
    · exact hempty.append fun _ => (settled_join hkind hparts hlast).append fun _ => hempty
  · have htailRow : (ofRow kind row).tail = orderByPart (trimEnd b) := htail
    have hsettled : (orderByPart (trimEnd b)).Settled := by
      refine .append (Part.settled_of_lastText ?_) fun _ cell hcell _ _ => ?_
      · exact lastText_trimEnd b ▸ lastText_ne_of_isSuffix hb hlast
      · cases hcell
        exact cons_ne_nil _ _
    have hrow : (orderByPart (trimEnd b)).row ≠ [] :=
      Part.row_append_ne_nil (.inl (cons_ne_nil _ _))
    rw [relisted, htailRow]
    exact ⟨Part.row_append_ne_nil (.inr hrow), hsettled.append fun hnil => absurd hnil hrow⟩

end Ends

/-! ## Putting a list behind `by` -/

/-- A word that is `by` up to case is made of parts of words. -/
theorem all_isWordChar_by {t : Text} (h : t.toLowerAscii = "by".toList) : t.all isWordChar := by
  rw [← Text.all_isWordChar_toLowerAscii, h]
  decide

theorem append_by_ne {t word : Text} (h : t.toLowerAscii = "by".toList) (hword : word ≠ []) :
    (t ++ word).toLowerAscii ≠ "by".toList := by
  rw [Text.toLowerAscii_append, h]
  intro heq
  exact hword (map_eq_nil_iff.1 (append_right_eq_self.1 heq))

theorem append_by_ne_singleton {t word : Text} (h : t.toLowerAscii = "by".toList)
    (hword : word ≠ []) (c : Char) : t ++ word ≠ [c] := by
  intro heq
  have htwo : t.length = 2 := by
    have hlength := congrArg length h
    rwa [Text.toLowerAscii, length_map] at hlength
  have hone := congrArg length heq
  have hpos := length_pos_iff.2 hword
  rw [length_append, htwo, length_singleton] at hone
  omega

theorem Lexeme.named_word {word : Word} (h : word.text ≠ ['@']) :
    ∀ key ∈ (Lexeme.word word).keys, key.1 ≠ ['@'] := by
  rw [Lexeme.keys_of_isLiteral_eq_false rfl, forall_mem_singleton]
  exact h

/-- A text that is `by` up to case and the word of a cell, run together. -/
def Cell.behindBy (cell : Cell σ) {t : Text} (h : t.toLowerAscii = "by".toList)
    (hword : cell.lexeme.text.all isWordChar = true) : Cell σ where
  lexeme := .word ⟨t ++ cell.lexeme.text,
    append_ne_nil_of_right_ne_nil t cell.lexeme.text_ne_nil,
    all_append.trans (Bool.and_eq_true_iff.2 ⟨all_isWordChar_by h, hword⟩)⟩
  gap := cell.gap
  filler := cell.filler
  named := .inr (Lexeme.named_word (append_by_ne_singleton h cell.lexeme.text_ne_nil '@'))
  number := nofun
  even heq := absurd heq (append_by_ne h cell.lexeme.text_ne_nil)

/-- Only words start with a part of a word. -/
theorem Lexeme.isWord_of_head {lexeme : Lexeme} (h : lexeme.text.head?.any isWordChar) :
    lexeme.isLiteral = false ∧ lexeme.text.all isWordChar := by
  cases lexeme with
  | word w => exact ⟨rfl, w.chars⟩
  | symbol s => exact absurd (s.word.symm.trans h) (by decide)
  | literal l => exact absurd ((isWordChar_of_isQuoteMark l.quote).symm.trans h) (by decide)

/-- Only a word runs together with `by`. -/
theorem isWord_of_not_apart {cell : Cell σ} {t : Text} (ht : t.toLowerAscii = "by".toList)
    (h : ¬ Apart t cell.lexeme.text) : cell.lexeme.text.all isWordChar := by
  refine (Lexeme.isWord_of_head (Bool.of_not_eq_false fun hnone => ?_)).2
  refine h (apart_iff.2 fun x hx c hc => ?_)
  have hword := all_eq_true.1 (all_isWordChar_by ht) x (mem_of_getLast? hx)
  rw [hc] at hnone
  rw [fuses_of_isWordChar_left hword]
  exact hnone

theorem weight_eq_zero_of_head {cell : Cell σ} {text word : Text} (hcell : cell.is text)
    (htext : text.head? = some 'b') (hword : word.head? ≠ some 'b') : weight word [cell] = 0 := by
  refine (weight_is hcell word).trans (if_neg ?_)
  rintro rfl
  exact hword htext

section Behind

variable {front : Row σ} {by_ : Cell σ} (hby : by_.is "by".toList = true)
  (hfront : Legible (front ++ [by_])) {part : Part σ} (hpart : Legible part.row)

include hfront hpart

/-- A part that stays apart from `by` can be put behind it. -/
theorem legible_behind (hseam : (∀ s, by_.gap s ++ part.lead ≠ []) ∨
      ∀ cell ∈ part.row.head?, Apart by_.lexeme.text cell.lexeme.text) :
    Legible (Part.ofRow (front ++ [by_]) ++ part).row := by
  rw [Part.append_of_row_ne_nil (append_ne_nil_of_right_ne_nil _ (cons_ne_nil _ _))]
  have hpad : Legible (mapLast (·.padBlank part.lead part.blank) (front ++ [by_])) :=
    Legible.mapLast (f := (·.padBlank part.lead part.blank)) (fun _ => rfl) hfront
  refine isChain_append.2 ⟨hpad, hpart, fun last hlast first hfirst s => ?_⟩
  simp only [Part.ofRow, mapLast_concat, getLast?_concat, Option.mem_some_iff] at hlast
  subst hlast
  exact hseam.imp (fun h => h s) fun h => h first hfirst

/-- A word that runs together with `by` can be put behind it. -/
theorem legible_behindBy {cell : Cell σ} {rest : Row σ} (hrow : part.row = cell :: rest)
    (hby : by_.lexeme.text.toLowerAscii = "by".toList)
    (hword : cell.lexeme.text.all isWordChar) :
    Legible (front ++ cell.behindBy hby hword :: rest) := by
  rw [hrow] at hpart
  obtain ⟨hinit, -, hseam⟩ := isChain_append.1 hfront
  refine isChain_append.2 ⟨hinit, isChain_cons.2 ⟨fun next hnext s => ?_, ?_⟩, ?_⟩
  · refine (isChain_cons.1 hpart).1 next hnext s |>.imp_right fun hapart => ?_
    refine apart_iff.2 fun x hx y hy => apart_iff.1 hapart x ?_ y hy
    rw [← hx]
    exact (getLast?_append_of_ne_nil _ cell.lexeme.text_ne_nil).symm
  · exact (isChain_cons.1 hpart).2
  · intro last hlast first hfirst s
    cases hfirst
    refine (hseam last hlast by_ rfl s).imp_right fun hapart => ?_
    refine apart_iff.2 fun x hx y hy => apart_iff.1 hapart x hx y ?_
    rw [← hy]
    exact (head?_append_of_ne_nil _ by_.lexeme.text_ne_nil).symm

include hby

/-- A part can be put behind the word `by` : it stays apart from it, or runs together with it into
one word. -/
theorem exists_behind (hne : front ≠ []) : ∃ row : Row σ, Legible row ∧ row ≠ [] ∧
      (∀ s, text s row = text s (front ++ [by_]) ++ part.text s) ∧
      row.head?.map lexeme = front.head?.map lexeme ∧
      (∀ word : Text, word.head? ≠ some 'b' →
        weight word row ≤ weight word front + part.weight word) ∧
      (part.row ≠ [] → part.Settled → (Part.ofRow row).Settled) := by
  have htext := (is_iff.1 hby).2
  have hfrontNe : (Part.ofRow (front ++ [by_])).row ≠ [] :=
    append_ne_nil_of_right_ne_nil _ (cons_ne_nil _ _)
  by_cases hseam : (∀ s, by_.gap s ++ part.lead ≠ []) ∨
      ∀ cell ∈ part.row.head?, Apart by_.lexeme.text cell.lexeme.text
  · refine ⟨(Part.ofRow (front ++ [by_]) ++ part).row, legible_behind hfront hpart hseam,
      Part.row_append_ne_nil (.inl hfrontNe),
      fun s => ?_, ?_, fun word hword => ?_, fun hrow hsettled => ?_⟩
    · have happend := Part.text_append s (Part.ofRow (front ++ [by_])) part
      have hlead : (Part.ofRow (front ++ [by_]) ++ part).lead = [] := by
        rw [Part.append_of_row_ne_nil hfrontNe]
        rfl
      rwa [Part.text, hlead, nil_append] at happend
    · have hlexemes := Part.lexemes_append (Part.ofRow (front ++ [by_])) part
      have hhead := congrArg head? hlexemes
      rw [Part.lexemes, Part.lexemes_ofRow, map_append, append_assoc, head?_append,
        head?_map, head?_map] at hhead
      obtain ⟨first, rest, rfl⟩ := exists_cons_of_ne_nil hne
      exact hhead
    · have hzero := weight_eq_zero_of_head hby rfl hword
      have happend := Part.weight_append word (Part.ofRow (front ++ [by_])) part
      rw [Part.weight, Part.weight_ofRow, weight_append, hzero] at happend
      omega
    · exact hsettled.append fun hnil => absurd hnil hrow
  · obtain ⟨hgap, hhead⟩ := not_or.1 hseam
    have hlead : part.lead = [] := by
      by_contra hne
      exact hgap fun s => append_ne_nil_of_right_ne_nil _ hne
    have hempty : ∀ s, by_.gap s = [] := (by_.even htext).empty.resolve_right fun hne =>
      hgap fun s => append_ne_nil_of_left_ne_nil (hne s) _
    obtain ⟨cell, rest, hrow, hapart⟩ : ∃ cell rest, part.row = cell :: rest ∧
        ¬ Apart by_.lexeme.text cell.lexeme.text := by
      simp only [not_forall] at hhead
      obtain ⟨cell, hcell, hapart⟩ := hhead
      obtain ⟨rest, hrow⟩ := head?_eq_some_iff.1 hcell
      exact ⟨cell, rest, hrow, hapart⟩
    have hword := isWord_of_not_apart htext hapart
    refine ⟨front ++ cell.behindBy htext hword :: rest,
      legible_behindBy hfront hpart hrow htext hword,
      append_ne_nil_of_left_ne_nil hne _, fun s => ?_, ?_, fun other hother => ?_,
      fun _ hsettled => ?_⟩
    · have hgluedText : (cell.behindBy htext hword).lexeme.text =
        by_.lexeme.text ++ cell.lexeme.text := rfl
      have hgluedGap : (cell.behindBy htext hword).gap = cell.gap := rfl
      simp [Part.text, hlead, hrow, hempty s, hgluedText, hgluedGap]
    · obtain ⟨first, front, rfl⟩ := exists_cons_of_ne_nil hne
      rfl
    · have hcell : (cell.behindBy htext hword).is
          ("by".toList ++ cell.lexeme.text.toLowerAscii) :=
        is_iff.2 ⟨rfl, (Text.toLowerAscii_append _ _).trans (by rw [htext])⟩
      have hzero := weight_eq_zero_of_head hcell rfl hother
      rw [weight_append, weight_cons, hzero, Part.weight, hrow, weight_cons other cell]
      omega
    · intro last hlast hlastBy
      cases rest with
      | nil =>
        rw [Part.ofRow, getLast?_concat] at hlast
        cases hlast
        exact absurd hlastBy (append_by_ne htext cell.lexeme.text_ne_nil)
      | cons next rest =>
        refine hsettled last ?_ hlastBy
        rw [hrow]
        simpa [Part.ofRow, getLast?_append] using hlast

end Behind

/-! ## A step -/

/-- The blanks at the end of a list. They make no difference between the indices where the list is
empty or ends in `by`. -/
theorem Row.exists_blanks (row : Row σ) : ∃ blanks : σ → Text, (∀ s, (blanks s).Blank) ∧
    (∀ s, text s row = (text s row).trimEnd ++ blanks s) ∧
    ((∀ s, blanks s = []) ∨ (∀ s, blanks s ≠ []) ∨
      row ≠ [] ∧ lastText row ≠ some "by".toList) := by
  choose blanks hblank htext using fun s => Text.exists_append_trimEnd (text s row)
  refine ⟨blanks, hblank, htext, ?_⟩
  rcases eq_nil_or_concat row with rfl | ⟨init, cell, rfl⟩
  · refine .inl fun s => ?_
    have hnil : [] = Text.trimEnd [] ++ blanks s := htext s
    exact (append_eq_nil_iff.1 hnil.symm).2
  · rw [concat_eq_append] at htext ⊢
    by_cases hby : cell.lexeme.text.toLowerAscii = "by".toList
    · have heq : ∀ s, blanks s = cell.gap s := by
        intro s
        have hwhole := htext s
        rw [← text_trimEnd, trimEnd, mapLast_concat] at hwhole
        simp only [text_append, text_cons, text_nil, Cell.trimEnd, append_nil,
          Text.trimEnd_of_blank ((cell.even hby).blank s)] at hwhole
        exact (append_cancel_left (hwhole.trans (append_assoc _ _ _)) |> append_cancel_left).symm
      rcases (cell.even hby).empty with hempty | hne
      · exact .inl fun s => (heq s).trans (hempty s)
      · exact .inr (.inl fun s => heq s ▸ hne s)
    · refine .inr (.inr ⟨append_ne_nil_of_right_ne_nil _ (cons_ne_nil _ _), ?_⟩)
      rw [lastText_concat]
      exact fun h => hby (Option.some.inj h)

/-- The text with the list of a match converted. -/
def reposition (kind : ListKind) (sql : Text) (found : PatternMatch) : Except Error Text := do
  let list := (found.bindings.get? ['r']).getD []
  let select ← CommaList.parse .select (capture found "s")
  let inserted ← converted kind select list
  let start := found.stop - 1 - list.byteSize
  sql.replaceSlice start (start + list.trimEnd.byteSize) inserted

/-- The match has a list between the word `by` and its last cell. -/
structure Row.Taken.Lists (taken : Taken σ) (front : Row σ) (by_ last : Cell σ) : Prop where
  cells : taken.cells = front ++ by_ :: (taken.get "r".toList ++ [last])
  first : front.head?.any (·.is "select".toList) = true
  word : by_.is "by".toList = true
  last : last.is [';'] = true ∨ last.is [')'] = true
  select : Closed (taken.get "s".toList) ∧ taken.get "s".toList <:+: taken.cells
  list : Closed (taken.get "r".toList)

/-- The terminator behind a list is a single byte that runs together with nothing. -/
theorem Row.Taken.Lists.exists_close {taken : Taken σ} {front : Row σ} {by_ last : Cell σ}
    (h : taken.Lists front by_ last) : ∃ c, (c = ';' ∨ c = ')') ∧ last.lexeme.text = [c] ∧
      inert c ∧ Text.byteSize [c] = 1 := by
  rcases h.last with h | h
  · exact ⟨';', .inl rfl, text_of_is h (by decide), by decide, by decide⟩
  · exact ⟨')', .inr rfl, text_of_is h (by decide), by decide, by decide⟩

/-- The text up to the terminator of a list. -/
theorem Row.Taken.Lists.body {taken : Taken σ} {front : Row σ} {by_ last : Cell σ}
    (h : taken.Lists front by_ last) (s : σ) : body s taken.cells =
      text s (front ++ [by_]) ++ text s (taken.get "r".toList) ++ last.lexeme.text := by
  have hcells : taken.cells = front ++ [by_] ++ taken.get "r".toList ++ [last] := by
    rw [h.cells]
    simp
  rw [hcells, body_concat, text_append]

/-- The converted list takes the place of the list, blanks at its end aside. -/
theorem reposition_report {kind : ListKind} (s : σ) (lead : Text) {pre : Row σ}
    {taken : Taken σ} (hselect : Legible (taken.get "s".toList)) {front : Row σ}
    {by_ last : Cell σ} (hlists : taken.Lists front by_ last) {inserted blanks : Text}
    (hinserted : converted kind ((ofRow .select
      (trimEnd (taken.get "s".toList))).commaList .select s)
        (text s (taken.get "r".toList)) = .ok inserted)
    (hblanks : text s (taken.get "r".toList) =
      (text s (taken.get "r".toList)).trimEnd ++ blanks) :
    reposition kind (lead ++ text s (pre ++ (taken.cells ++ taken.later)))
        (taken.report s lead pre) =
      .ok (lead ++ text s pre ++ text s (front ++ [by_]) ++
        inserted ++ (blanks ++ text s (last :: taken.later))) := by
  obtain ⟨c, -, hlastText, -, hsize⟩ := hlists.exists_close
  have hgetList : ((taken.report s lead pre).bindings.get? ['r']).getD [] =
    text s (taken.get "r".toList) := get?_report s lead 0 ⟨[], taken⟩ _
  have hstart : (taken.report s lead pre).stop - 1 -
      (text s (taken.get "r".toList)).byteSize =
        (lead ++ text s pre ++ text s (front ++ [by_])).byteSize := by
    rw [Taken.report, hlists.body, hlastText]
    simp only [Text.byteSize_append, hsize]
    omega
  have hsql : lead ++ text s (pre ++ (taken.cells ++ taken.later)) =
      lead ++ text s pre ++ text s (front ++ [by_]) ++
        ((text s (taken.get "r".toList)).trimEnd ++ (blanks ++ text s (last :: taken.later))) := by
    rw [← append_assoc (Text.trimEnd _), ← hblanks, hlists.cells]
    simp
  rw [reposition]
  simp only [hgetList, Taken.capture_report, hstart]
  rw [parse_text .select s hselect.trimEnd hlists.select.1.trimEnd, ok_bind, hinserted, ok_bind,
    hsql, Text.replaceSlice_append rfl (Text.byteSize_append _ _)]

section Step

variable {kind : ListKind} (hkind : kind = .groupBy ∨ kind = .orderBy)

include hkind

/-- A list of references is legible. -/
theorem legible_references {list : Row σ} (hlist : Legible list ∧ Closed list)
    {parts : List (Part σ)} (hparts : Forall₂ (fun item part =>
      ∃ index, part = referencePart kind index item) (ofRow kind list).items parts) :
    Legible ((ofRow kind list).relisted parts).row := by
  obtain ⟨-, -, hitems⟩ := legible_ofRow kind hlist.1 hlist.2
  refine legible_relisted kind hlist.1 hlist.2 (forall_mem_of_forall₂ hparts ?_)
  rintro item hitem _ ⟨index, rfl⟩
  obtain ⟨segment, -, rfl⟩ := mem_map.1 hitem
  refine legible_referencePart index (hitems _ hitem) (opens_suffixPart ?_ _)
  rcases hkind with rfl | rfl <;> decide

/-- A list can be put behind `by` again when its elements are replaced, with the blanks at its
end. -/
theorem exists_spliced {select front list : Row σ} {by_ : Cell σ}
    (hselect : Legible select ∧ Closed select) (hfront : Legible (front ++ [by_]))
    (hby : by_.is "by".toList) (hne : front ≠ [])
    (hlist : Legible list ∧ Closed list) (hdollar : Unmarked list) :
    ∃ row : Row σ, Legible row ∧
      row.head?.map lexeme = front.head?.map lexeme ∧
      (∀ word, word = "select".toList ∨ word = ['$'] →
        weight word row ≤ weight word front + weight word list) ∧
      ∀ s, ∃ inserted blanks : Text, converted kind ((ofRow .select select).commaList .select s)
          (text s list) = .ok inserted ∧
        text s list = (text s list).trimEnd ++ blanks ∧
        text s row = text s (front ++ [by_]) ++ inserted ++ blanks := by
  obtain ⟨parts, hparts, hconverted⟩ := exists_converted kind hselect hlist
  have hpartsWeight : ∀ word : Text, word.head?.any Char.isDigit = false →
      ((ofRow kind list).relisted parts).weight word ≤ weight word list := by
    refine fun word hword => weight_relisted_le kind list (hparts.imp ?_)
    rintro item _ ⟨index, rfl⟩
    exact weight_referencePart_le hword kind index item
  obtain ⟨row, hrow, hrowNe, htext, hhead, hweight, hsettled⟩ := exists_behind hby hfront
    (legible_references hkind hlist hparts) hne
  obtain ⟨blanks, hblank, htrim, hblanks⟩ := exists_blanks list
  obtain ⟨init, cell, rfl⟩ := (eq_nil_or_concat row).resolve_left hrowNe
  rw [concat_eq_append] at hrow htext hhead hweight hsettled
  have heven : cell.lexeme.text.toLowerAscii = "by".toList →
      (∀ s, blanks s = []) ∨ ∀ s, cell.gap s ++ blanks s ≠ [] := by
    intro hcell
    rcases hdollar with hdollar | hone
    swap
    · by_cases hnil : ∀ s, blanks s = []
      · exact .inl hnil
      · obtain ⟨s, hs⟩ := not_forall.1 hnil
        exact .inr fun s' => Subsingleton.elim s s' ▸ append_ne_nil_of_right_ne_nil _ hs
    rcases hblanks with hnil | hne | ⟨hne, hlast⟩
    · exact .inl hnil
    · exact .inr fun s => append_ne_nil_of_right_ne_nil _ (hne s)
    · obtain ⟨hpartNe, hpartSettled⟩ := settled_relisted hkind hne hdollar hlast hparts
      have hgap := hsettled hpartNe hpartSettled cell getLast?_concat hcell
      exact .inr fun s => append_ne_nil_of_left_ne_nil (hgap s) _
  have hlexemes : (init ++ [cell.pad blanks hblank heven]).map lexeme =
      (init ++ [cell]).map lexeme := by
    rw [map_append, map_append]
    rfl
  refine ⟨init ++ [cell.pad blanks hblank heven], ?_, ?_, fun word hword => ?_, fun s => ?_⟩
  · obtain ⟨hinit, -, hseam⟩ := isChain_append.1 hrow
    refine isChain_append.2 ⟨hinit, isChain_singleton _, fun last hlast next hnext => ?_⟩
    cases hnext
    exact hseam last hlast cell rfl
  · rw [← head?_map, hlexemes, head?_map]
    exact hhead
  · rw [weight_eq_of_map_lexeme word hlexemes]
    have hlist := hpartsWeight word (by rcases hword with rfl | rfl <;> decide)
    have hrow := hweight word (by rcases hword with rfl | rfl <;> decide)
    omega
  · refine ⟨_, blanks s, hconverted s, htrim s, ?_⟩
    rw [← htext s]
    simp [pad]

/-- The list of a match is converted into the same cells at every index. -/
theorem exists_reposition (lead : σ → Text) (pre : Row σ) (taken : Taken σ)
    (hlegible : Legible (pre ++ (taken.cells ++ taken.later)))
    (hdollar : Unmarked (pre ++ (taken.cells ++ taken.later)))
    {front : Row σ} {by_ last : Cell σ} (hlists : taken.Lists front by_ last) :
    ∃ new, Rewrite "select".toList taken.cells new ∧ ∀ s,
      reposition kind (lead s ++ text s (pre ++ (taken.cells ++ taken.later)))
          (taken.report s (lead s) pre) = .ok (lead s ++ text s (pre ++ (new ++ taken.later))) := by
  have hpart : ∀ {row : Row σ}, row <:+: taken.cells → Legible row := fun h =>
    hlegible.of_isInfix (h.trans (infix_append' _ _ _))
  have hlist : taken.get "r".toList <:+: taken.cells := by
    refine ⟨front ++ [by_], [last], ?_⟩
    rw [hlists.cells]
    simp
  have hfront : front ++ [by_] <:+: taken.cells := by
    refine ⟨[], taken.get "r".toList ++ [last], ?_⟩
    rw [hlists.cells]
    simp
  have hfrontNe : front ≠ [] := by
    rintro rfl
    exact absurd hlists.first (by simp)
  have hlistDollar : Unmarked (taken.get "r".toList) :=
    hdollar.of_isInfix (hlist.trans (infix_append' _ _ _))
  obtain ⟨row, hrow, hhead, hweight, htext⟩ := exists_spliced hkind
    ⟨(hpart hlists.select.2).trimEnd, hlists.select.1.trimEnd⟩ (hpart hfront) hlists.word hfrontNe
    ⟨hpart hlist, hlists.list⟩ hlistDollar
  obtain ⟨c, -, hlastText, hinert, -⟩ := hlists.exists_close
  have hcells : ∀ word, weight word taken.cells = weight word front +
      weight word [by_] + weight word (taken.get "r".toList) + weight word [last] := by
    intro word
    rw [hlists.cells, weight_append, weight_cons word by_, weight_append]
    omega
  have hnew : ∀ word, word = "select".toList ∨ word = ['$'] →
      weight word (row ++ [last]) ≤ weight word taken.cells := by
    intro word hword
    have hle := hweight word hword
    rw [weight_append, hcells]
    omega
  refine ⟨row ++ [last], ⟨?_, ?_, ?_, hnew _ (.inl rfl), hnew _ (.inr rfl)⟩, fun s => ?_⟩
  · refine hrow.append_cons (isChain_singleton _) ?_
    rw [hlastText]
    exact hinert
  · obtain ⟨first, rest, rfl⟩ := exists_cons_of_ne_nil hfrontNe
    obtain ⟨cell, hcell, hlexeme⟩ := Option.map_eq_some_iff.1 hhead
    rw [hlists.cells, head?_append, hcell, cons_append, head?_cons, Option.some_or,
      Option.map_some, hlexeme]
    rfl
  · rw [hlists.cells, getLast?_concat, ← cons_append, ← append_assoc, getLast?_concat]
  · obtain ⟨inserted, blanks, hinserted, hblanks, hrow⟩ := htext s
    rw [reposition_report s (lead s) (hpart hlists.select.2) hlists hinserted hblanks]
    simp [hrow]

end Step

/-! ## The run -/

/-- The pattern of a grouped query that ends with the text. -/
def groupedBlocks (close : Text) : List PatternBlock :=
  [.literal "select".toList, .placeholder "s".toList none, .literal "from".toList,
    .placeholder "b".toList none, .literal "group".toList, .literal "by".toList,
    .placeholder "r".toList none, .literal close]

theorem blocks_groupByPattern : groupByPattern.blocks = groupedBlocks [';'] := by
  decide

theorem blocks_nestedGroupByPattern : nestedGroupByPattern.blocks = groupedBlocks [')'] := by
  decide

/-- The pattern of a grouped query that ends with an `order by` list. -/
def orderedBlocks : List PatternBlock :=
  [.literal "select".toList, .placeholder "s".toList none, .literal "from".toList,
    .placeholder "b".toList none, .literal "group".toList, .literal "by".toList,
    .placeholder "c".toList none, .literal "order".toList, .literal "by".toList,
    .placeholder "r".toList none, .literal [';']]

theorem blocks_orderByPattern : orderByPattern.blocks = orderedBlocks := by
  decide

theorem exists_lists_grouped {close : Text} (hclose : close = [';'] ∨ close = [')'])
    {taken : Taken σ} (htakes : Takes (groupedBlocks close) taken.cells taken.captures) :
    ∃ front by_ last, taken.Lists front by_ last := by
  obtain ⟨select, _, hcells, hselect, s, from_, _, _, rfl, hcaptures, hs, -, b, group, _, _, rfl,
    rfl, -, -, by_, _, rfl, hby, r, last, _, _, rfl, rfl, hr, hlast, rfl, rfl⟩ := htakes
  have hget : taken.get "s".toList = s ∧ taken.get "r".toList = r := by
    simp only [Taken.get, hcaptures]
    exact ⟨rfl, rfl⟩
  refine ⟨select :: (s ++ from_ :: (b ++ [group])), by_, last, ?_, hselect, hby, ?_, ?_, ?_⟩
  · rw [hcells, hget.2]
    simp
  · rcases hclose with rfl | rfl
    · exact .inl hlast
    · exact .inr hlast
  · rw [hget.1, hcells]
    exact ⟨hs, [select], _, rfl⟩
  · rw [hget.2]
    exact hr

theorem exists_lists_ordered {taken : Taken σ}
    (htakes : Takes orderedBlocks taken.cells taken.captures) :
    ∃ front by_ last, taken.Lists front by_ last := by
  obtain ⟨select, _, hcells, hselect, s, from_, _, _, rfl, hcaptures, hs, -, b, group, _, _, rfl,
    rfl, -, -, grouped, _, rfl, -, c, order, _, _, rfl, rfl, -, -, by_, _, rfl, hby, r, last, _, _,
    rfl, rfl, hr, hlast, rfl, rfl⟩ := htakes
  have hget : taken.get "s".toList = s ∧ taken.get "r".toList = r := by
    simp only [Taken.get, hcaptures]
    exact ⟨rfl, rfl⟩
  refine ⟨select :: (s ++ from_ :: (b ++ group :: grouped :: (c ++ [order]))), by_, last, ?_,
    hselect, hby, .inl hlast, ?_, ?_⟩
  · rw [hcells, hget.2]
    simp
  · rw [hget.1, hcells]
    exact ⟨hs, [select], _, rfl⟩
  · rw [hget.2]
    exact hr

theorem step_reposition (pattern : Pattern) (kind : ListKind) (state : Progress) :
    step pattern kind state = do
      match ← findClause state.sql pattern state.first with
      | none => return none
      | some found => return some ⟨← reposition kind state.sql found, found.startToken + 1⟩ := by
  rw [step]
  congr 1
  funext found
  cases found with
  | none => rfl
  | some found => simp only [reposition, bind_assoc]

section Convert

variable {pattern : Pattern} {kind : ListKind} {blocks : List PatternBlock}
  (hkind : kind = .groupBy ∨ kind = .orderBy)
  (hblocks : pattern.blocks = .literal "select".toList :: blocks)
  (hsimple : ∀ block ∈ pattern.blocks, block.Simple)
  (hlists : ∀ taken : Taken σ, Takes pattern.blocks taken.cells taken.captures →
    ∃ front by_ last, taken.Lists front by_ last)
  {lead : σ → Text} (hlead : ∀ s, Heading (lead s)) {row : Row σ} (hlegible : Legible row)

theorem Row.text_semicolon (s : σ) (row : Row σ) :
    text s (row ++ [.ofSymbol ';' isPlainSymbol_semicolon]) = text s row ++ [';'] :=
  text_append s row _

theorem Row.Legible.semicolon {row : Row σ} (h : Legible row) :
    Legible (row ++ [.ofSymbol ';' isPlainSymbol_semicolon]) :=
  h.append_cons (isChain_singleton _) (show inert ';' by decide)

include hkind hblocks hsimple hlists hlead hlegible

/-- The run over the lists that the pattern finds ends with a row, and the `;` put behind the text
is there still. -/
theorem Row.exists_run_convert (hdollar : Unmarked row) : ∃ row', Legible row' ∧ Unmarked row' ∧
    ∀ s, Progress.run (step pattern kind) (lead s ++ text s row ++ [';']) =
      .ok (lead s ++ text s row' ++ [';']) := by
  have hsemicolon : (ofSymbol ';' isPlainSymbol_semicolon : Cell σ).is [';'] := rfl
  have hendedDollar : Unmarked (row ++ [.ofSymbol ';' isPlainSymbol_semicolon]) :=
    hdollar.imp_left fun hdollar => by
      rw [weight_append, hdollar, weight_is hsemicolon, if_neg (by decide)]
  obtain ⟨all, hall, hallDollar, hlast, hrun⟩ := exists_run hblocks hsimple _
    (step_reposition pattern kind) hlead (fun pre taken hlegible hdollar htakes => by
      obtain ⟨front, by_, last, htaken⟩ := hlists taken htakes
      exact exists_reposition hkind lead pre taken hlegible hdollar htaken) hlegible.semicolon
    hendedDollar
  rw [getLast?_concat, Option.map_some, Option.map_eq_some_iff] at hlast
  obtain ⟨last, hlast, hending⟩ := hlast
  obtain ⟨row', rfl⟩ := getLast?_eq_some_iff.1 hlast
  obtain ⟨hshape, hgap⟩ := Prod.mk.inj hending
  have hlastText : last.lexeme.text = [';'] :=
    text_of_is ((is_congr hshape _).trans hsemicolon) (by decide)
  refine ⟨row', (isChain_append.1 hall).1,
    hallDollar.of_isInfix (prefix_append row' [last]).isInfix, fun s => ?_⟩
  have hchanged := hrun s
  have hlastRow : text s (row' ++ [last]) = text s row' ++ [';'] := by
    rw [text_append, text_cons, hlastText, hgap]
    rfl
  rwa [text_semicolon, hlastRow, ← append_assoc, ← append_assoc] at hchanged

/-- A text in which the lists that the pattern finds are converted is that of a row. -/
theorem Row.exists_convert (hdollar : Unmarked row) : ∃ row', Legible row' ∧ Unmarked row' ∧
    ∀ s, convert pattern kind (lead s ++ text s row) = .ok (lead s ++ text s row') := by
  obtain ⟨row', hlegible', hdollar', hrun⟩ :=
    exists_run_convert hkind hblocks hsimple hlists hlead hlegible hdollar
  refine ⟨row', hlegible', hdollar', fun s => ?_⟩
  rw [convert, hrun s, ok_bind, dropLast_concat]
  rfl

end Convert

end Layout

end SqlScript
