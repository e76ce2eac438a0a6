import SqlScript.BigQuery.IdList
import SqlScript.Proofs.RowRun

/-!
# Lists of ids in rows

A list of quoted numbers is a row of number literals with commas between them (`Row.isNumber`), and
only blanks stand behind the numbers. So whether a list loses its quotes is the same at every index,
and without its single quotes the list is a row of numbers and commas (`Row.exists_bare`). The run
over all membership tests ends with a row (`Row.exists_unquoteNumbers`).
-/

namespace SqlScript

open List Layout.Row BigQuery.IdList Layout.Lexeme Layout.Cell

namespace BigQuery.IdList

/-- The text is a number. -/
def IsNumber (t : Text) : Prop :=
  t ≠ [] ∧ ∀ c ∈ t, c.isDigit = true

/-- The text between single quotes. -/
def quoted (t : Text) : Text :=
  '\'' :: (t ++ ['\''])

/-- The tokens of the texts with commas between them. -/
def listKeys (texts : List Text) : List (Text × Bool) :=
  [([','], false)].intercalate (texts.map Text.keys)

theorem listKeys_cons (t t' : Text) (texts : List Text) :
    listKeys (t :: t' :: texts) = t.keys ++ ([','], false) :: listKeys (t' :: texts) := by
  simp [listKeys]

end BigQuery.IdList

namespace Layout

open BigQuery

variable {σ : Type}

/-! ## Quoted numbers -/

/-- Whether the row is a number between single quotes. -/
def Row.isNumber : Row σ → Bool
  | [cell] => cell.lexeme.isNumber
  | _ => false

theorem Lexeme.exists_of_isNumber {lexeme : Lexeme} (h : lexeme.isNumber) :
    ∃ digits, lexeme.text = '\'' :: (digits ++ ['\'']) ∧ digits ≠ [] ∧ ∀ c ∈ digits, c.isDigit := by
  cases lexeme with
  | word w => simp [isNumber] at h
  | symbol s => simp [isNumber] at h
  | literal l =>
    simp only [isNumber, Bool.and_eq_true, beq_iff_eq, Bool.not_eq_true', isEmpty_eq_false_iff,
      all_eq_true] at h
    obtain ⟨⟨hmark, hne⟩, hdigits⟩ := h
    exact ⟨l.content, by rw [text, hmark], hne, hdigits⟩

theorem isQuotedNumber_iff {t : Text} : isQuotedNumber t ↔
    ∃ digits, t = '\'' :: (digits ++ ['\'']) ∧ digits ≠ [] ∧ ∀ c ∈ digits, c.isDigit := by
  constructor
  · intro h
    rw [isQuotedNumber.eq_def] at h
    split at h
    · rename_i rest
      simp only [Bool.and_eq_true, beq_iff_eq, decide_eq_true_eq, all_eq_true] at h
      obtain ⟨⟨hlast, hlength⟩, hdigits⟩ := h
      obtain ⟨digits, rfl⟩ := getLast?_eq_some_iff.1 hlast
      rw [dropLast_concat] at hdigits
      refine ⟨digits, rfl, ?_, hdigits⟩
      rintro rfl
      exact absurd hlength (by decide)
    · exact absurd h (by decide)
  · rintro ⟨digits, rfl, hne, hdigits⟩
    have hlength := length_pos_iff.2 hne
    simpa [isQuotedNumber, hlength] using hdigits

theorem notMem_digits {digits : Text} (h : ∀ c ∈ digits, c.isDigit) : '\'' ∉ digits :=
  fun hmem => absurd (h _ hmem) (by decide)

theorem Lexeme.isNumber_of_text {lexeme : Lexeme} {digits gap : Text} (hne : digits ≠ [])
    (hdigits : ∀ c ∈ digits, c.isDigit)
    (h : lexeme.text ++ gap = '\'' :: (digits ++ ['\''])) : lexeme.isNumber ∧ gap = [] := by
  cases lexeme with
  | word w =>
    obtain ⟨c, rest, hw⟩ := exists_cons_of_ne_nil w.ne_nil
    have hword := all_eq_true.1 w.chars c (by rw [hw]; exact mem_cons_self)
    rw [text, hw] at h
    obtain rfl : c = '\'' := (List.cons.inj h).1
    exact absurd hword (by decide)
  | symbol s =>
    have hquote := s.quote
    rw [show s.char = '\'' from (List.cons.inj h).1] at hquote
    exact absurd hquote (by decide)
  | literal l =>
    obtain ⟨hmark, hcontent⟩ := List.cons.inj h
    have hsplit : digits ++ '\'' :: [] = l.content ++ '\'' :: gap := by
      rw [← hcontent, hmark]
      simp
    obtain ⟨rfl, -, rfl⟩ := (append_cons_inj_of_notMem (notMem_digits hdigits) not_mem_nil).1 hsplit
    simpa [isNumber, hmark, hne] using hdigits

/-- Whether an element is a quoted number is told by its cells. -/
theorem Row.isQuotedNumber_text (s : σ) (row : Row σ) :
    IdList.isQuotedNumber (text s (trimEnd row)) = isNumber row := by
  rw [Bool.eq_iff_iff, isQuotedNumber_iff]
  constructor
  · rintro ⟨digits, htext, hne, hdigits⟩
    cases row with
    | nil => simp [trimEnd, mapLast] at htext
    | cons cell row =>
      cases row with
      | nil => exact (Lexeme.isNumber_of_text hne hdigits htext).1
      | cons next row =>
        obtain ⟨-, hnil⟩ := Lexeme.isNumber_of_text hne hdigits htext
        have hrest : text s (trimEnd (next :: row)) = [] := (append_eq_nil_iff.1 hnil).2
        have hnext : next.lexeme.text = [] := by
          cases row <;> exact (append_eq_nil_iff.1 hrest).1
        exact absurd hnext next.lexeme.text_ne_nil
  · intro hnumber
    rcases row with _ | ⟨cell, _ | ⟨next, row⟩⟩
    · cases hnumber
    · obtain ⟨digits, htext, hne, hdigits⟩ := Lexeme.exists_of_isNumber hnumber
      refine ⟨digits, ?_, hne, hdigits⟩
      simp [trimEnd, mapLast, Cell.trimEnd, htext, Text.trimEnd_of_blank (cell.number hnumber s)]
    · cases hnumber

/-! ## Taking the quotes off -/

/-- The comma without single quotes in the filler behind it. -/
def Cell.unquoted (cell : Cell σ) (h : cell.is [','] = true) : Cell σ where
  lexeme := cell.lexeme
  gap s := (cell.gap s).filter (· != '\'')
  filler s := (cell.filler s).filter
  named := cell.named
  number hnumber := by
    have hliteral := (is_iff.1 h).1
    cases hlexeme : cell.lexeme <;> simp_all [Lexeme.isNumber, Lexeme.isLiteral]
  even hby := by
    rw [text_of_is h (by decide)] at hby
    exact absurd hby (by decide)

theorem filter_of_digits {digits : Text} (h : ∀ c ∈ digits, c.isDigit) :
    digits.filter (· != '\'') = digits :=
  filter_eq_self.2 fun _ hc => bne_iff_ne.2 (ne_of_mem_of_not_mem hc (notMem_digits h))

theorem filter_of_blank {gap : Text} (h : gap.Blank) : gap.filter (· != '\'') = gap := by
  refine filter_eq_self.2 fun c hc => bne_iff_ne.2 ?_
  rintro rfl
  exact absurd (h _ hc) (by decide)

/-- A number without its quotes. -/
theorem Cell.exists_bare {cell : Cell σ} (h : cell.lexeme.isNumber) :
    ∃ (digits : Text) (bare : Cell σ), IdList.IsNumber digits ∧
      cell.lexeme.text = IdList.quoted digits ∧ bare.lexeme.text = digits ∧
      (∀ word, word = "in".toList ∨ word = ['$'] → Row.weight word [bare] = 0) ∧
      ∀ s, Row.text s [bare] = (Row.text s [cell]).filter (· != '\'') := by
  obtain ⟨digits, htext, hne, hdigits⟩ := Lexeme.exists_of_isNumber h
  have hother : ∀ {c : Char} {word : Text}, c.isDigit = false → c ∈ word → digits ≠ word := by
    rintro c _ hc hmem rfl
    exact absurd (hdigits c hmem) (by simp [hc])
  have hword : (Cell.ofWord digits (isSmallWord_of_digits hne hdigits) : Cell σ).is digits :=
    is_ofWord _ _
  let bare : Cell σ := (Cell.ofWord digits (isSmallWord_of_digits hne hdigits)).pad cell.gap
    (cell.number h) fun hby => absurd ((is_iff.1 hword).2.symm.trans hby)
      (hother (c := 'b') (by decide) (by decide))
  have his : bare.is digits := hword
  refine ⟨digits, bare, ⟨hne, hdigits⟩, htext, rfl,
    fun word hword => (weight_is his word).trans (if_neg ?_), fun s => ?_⟩
  · rcases hword with rfl | rfl
    · exact hother (c := 'i') (by decide) (by decide)
    · exact hother (c := '$') (by decide) (by decide)
  · have hbare : Row.text s [bare] = digits ++ cell.gap s := by
      simp [bare, Cell.pad, Cell.ofWord, Lexeme.text]
    rw [hbare, text_cons, text_nil, append_nil, htext, filter_append,
      filter_of_blank (cell.number h s)]
    simp [filter_of_digits hdigits]

theorem Lexeme.keys_text (lexeme : Lexeme) : lexeme.keys = lexeme.text.keys :=
  rfl

/-- A list of quoted numbers without its single quotes is a row of the numbers. -/
theorem Row.exists_bare {segment : Row σ} {rest : List (Cell σ × Row σ)}
    (hsegment : isNumber segment)
    (hrest : ∀ entry ∈ rest, entry.1.is [','] ∧ isNumber entry.2) :
    ∃ (number : Text) (numbers : List Text) (bare : Row σ), Legible bare ∧
      (∀ word, word = "in".toList ∨ word = ['$'] → weight word bare = 0) ∧
      (∀ digits ∈ number :: numbers, IdList.IsNumber digits) ∧
      keys (segment ++ rest.flatMap fun entry => entry.1 :: entry.2) =
        IdList.listKeys ((number :: numbers).map IdList.quoted) ∧
      keys bare = IdList.listKeys (number :: numbers) ∧
      ∀ s, text s bare = (text s (segment ++ rest.flatMap fun entry => entry.1 :: entry.2)).filter
        (· != '\'') := by
  induction rest generalizing segment with
  | nil =>
    rcases segment with _ | ⟨cell, _ | ⟨next, segment⟩⟩
    · cases hsegment
    · obtain ⟨digits, number, hdigits, hquoted, hbare, hweight, htext⟩ := Cell.exists_bare hsegment
      refine ⟨digits, [], [number], isChain_singleton _, hweight,
        forall_mem_singleton.2 hdigits, ?_, ?_, by simpa using htext⟩
      · simp [IdList.listKeys, Lexeme.keys_text, hquoted]
      · simp [IdList.listKeys, Lexeme.keys_text, hbare]
    · cases hsegment
  | cons entry rest ih =>
    rcases segment with _ | ⟨cell, _ | ⟨next, segment⟩⟩
    · cases hsegment
    · rw [forall_mem_cons] at hrest
      obtain ⟨⟨hcomma, hnext⟩, hrest⟩ := hrest
      obtain ⟨digits, number, hdigits, hquoted, hplain, hweight, htext⟩ :=
        Cell.exists_bare hsegment
      obtain ⟨digits', numbers, bare, hlegible, hbare, hnumbers, hkeys, hbareKeys, hbareText⟩ :=
        ih hnext hrest
      have hlexeme : (entry.1.unquoted hcomma).lexeme.text = [','] :=
        Cell.text_of_is hcomma (by decide)
      have his : (entry.1.unquoted hcomma).is [','] := hcomma
      have hcommaKeys : entry.1.lexeme.keys = [([','], false)] :=
        (Lexeme.keys_of_isLiteral_eq_false (Cell.is_iff.1 hcomma).1).trans (by rw [← hlexeme]; rfl)
      refine ⟨digits, digits' :: numbers, [number] ++ entry.1.unquoted hcomma :: bare, ?_,
        fun word hword => ?_, forall_mem_cons.2 ⟨hdigits, hnumbers⟩, ?_, ?_, fun s => ?_⟩
      · refine Legible.append_cons (isChain_singleton _) (hlegible.cons ?_) ?_
        · rw [hlexeme]
          decide
        · rw [hlexeme]
          decide
      · rw [weight_append, weight_cons_is his, hweight word hword, hbare word hword]
        rcases hword with rfl | rfl <;> decide
      · rw [Row.keys_append, flatMap_cons, cons_append, Row.keys_cons cell, Row.keys_cons entry.1,
          hkeys, hcommaKeys, Lexeme.keys_text, hquoted]
        simp [IdList.listKeys_cons]
      · rw [Row.keys_append, Row.keys_cons number, Row.keys_cons, hbareKeys, Lexeme.keys_text,
          hplain, show (entry.1.unquoted hcomma).lexeme.keys = _ from hcommaKeys,
          IdList.listKeys_cons]
        simp
      · have hbehind : text s (entry.1.unquoted hcomma :: bare) = (text s (entry.1 :: (entry.2 ++
            rest.flatMap fun entry => entry.1 :: entry.2))).filter (· != '\'') := by
          rw [text_cons s entry.1, filter_append, filter_append, ← hbareText s, text_cons,
            hlexeme, Cell.text_of_is hcomma (by decide)]
          rfl
        rw [text_append, text_append, filter_append, ← htext s, flatMap_cons,
          cons_append, ← hbehind]
    · cases hsegment

/-! ## The run -/

theorem blocks_inPattern : inPattern.blocks = [.literal "in".toList, .literal ['('],
    .placeholder "i".toList none, .literal [')']] := by
  decide

/-- The token before a match is told by the keys of the cells before it. -/
theorem column_report {pre rest : Row σ} (hlegible : Row.Legible (pre ++ rest)) (s : σ)
    {lead : Text} (hlead : Heading lead) :
    (if (Row.keys pre).length == 0 then none
      else (tokens (lead ++ Row.text s (pre ++ rest)))[(Row.keys pre).length - 1]?).any
        IdList.isIdColumn =
      (Row.keys pre).getLast?.any fun key => IdList.isIdColumn (.ofKey key) := by
  rcases eq_nil_or_concat (Row.keys pre) with hnil | ⟨init, key, hkey⟩
  · simp [hnil]
  · have hkeys := congrArg (·[init.length]?) (map_key_tokens_text hlegible s hlead)
    simp only [getElem?_map, Row.keys_append, hkey, concat_eq_append, append_assoc,
      getElem?_append_right (Nat.le_refl _), Nat.sub_self, singleton_append,
      getElem?_cons_zero] at hkeys
    obtain ⟨token, htoken, rfl⟩ := Option.map_eq_some_iff.1 hkeys
    rw [hkey, concat_eq_append, getLast?_concat, length_append,
      length_singleton, if_neg (by simp), Nat.add_sub_cancel, htoken]
    rfl

/-- Whether a list loses its quotes is the same at every index. -/
theorem exists_applies {lead : σ → Text} (hlead : ∀ s, Heading (lead s)) (pre : Row σ)
    (taken : Taken σ) (hlegible : Legible (pre ++ (taken.cells ++ taken.later)))
    (hlist : Legible (taken.get "i".toList)) (hclosed : Closed (taken.get "i".toList)) :
    ∃ b, (b = true → (splitCommas 0 (trimEnd (taken.get "i".toList))).all isNumber) ∧
      ∀ s, applies (lead s ++ text s (pre ++ (taken.cells ++ taken.later)))
        (taken.report s (lead s) pre) = .ok b := by
  have hcolumn := fun s => column_report hlegible s (hlead s)
  have helements : ∀ s, ((Listing.ofRow .values (trimEnd (taken.get "i".toList))).commaList
      .values s).elements.all (fun element => isQuotedNumber element.expression) =
        (splitCommas 0 (trimEnd (taken.get "i".toList))).all isNumber := by
    intro s
    have hitems : (Listing.ofRow .values (trimEnd (taken.get "i".toList))).items =
        (splitCommas 0 (trimEnd (taken.get "i".toList))).map fun segment =>
          ⟨trimEnd segment, []⟩ := rfl
    rw [Listing.commaList, hitems, map_map, all_map]
    congr 1
    funext segment
    exact isQuotedNumber_text s segment
  cases hid : (keys pre).getLast?.any fun key => isIdColumn (.ofKey key) with
  | false =>
    refine ⟨false, fun hfalse => absurd hfalse Bool.false_ne_true, fun s => if_neg ?_⟩
    exact Bool.eq_false_iff.1 ((hcolumn s).trans hid)
  | true =>
    refine ⟨_, id, fun s => (if_pos ?_).trans ?_⟩
    · exact (hcolumn s).trans hid
    · rw [Taken.capture_report, parse_text .values s hlist.trimEnd hclosed.trimEnd, ok_bind,
        helements]
      rfl

/-- The text with the list of a match without quotes, if it loses them. -/
def unquoteAt (sql : Text) (found : PatternMatch) : Except Error Text := do
  if ← applies sql found then
    sql.replaceSlice found.start found.stop
      ("in (".toList ++ (capture found "i").filter (· != '\'') ++ [')'])
  else return sql

/-- The list of a match can be replaced by one without quotes. -/
theorem rewrite_bare {cells list bare : Row σ} {first opening last : Cell σ}
    (hcells : cells = first :: opening :: (list ++ [last])) (hlast : last.is [')'])
    (hlegible : Legible bare)
    (hweight : ∀ word, word = "in".toList ∨ word = ['$'] → weight word bare = 0) :
    Rewrite "in".toList cells (first.small.spaced [' '] blank_space ::
      .ofSymbol '(' (by decide) :: (bare ++ [last])) := by
  have hparen : (ofSymbol '(' (by decide) : Cell σ).is ['('] := rfl
  have hle : ∀ word, word = "in".toList ∨ word = ['$'] → weight word
      (first.small.spaced [' '] blank_space :: .ofSymbol '(' (by decide) :: (bare ++ [last])) ≤
        weight word cells := by
    intro word hword
    have hspaced : weight word [first.small.spaced [' '] blank_space] =
        weight word [first] :=
      (weight_eq_of_map_lexeme word rfl).trans (weight_small word first)
    have hother : ['('] ≠ word := by rcases hword with rfl | rfl <;> decide
    rw [hcells, weight_cons word (first.small.spaced _ _), weight_cons_is hparen, if_neg hother,
      weight_append, hweight word hword, hspaced,
      weight_cons word first (opening :: _), weight_cons word opening, weight_append]
    omega
  refine ⟨?_, ?_, ?_, hle _ (.inl rfl), hle _ (.inr rfl)⟩
  · have hend : Legible (bare ++ [last]) := by
      refine hlegible.append_cons (isChain_singleton _) ?_
      rw [text_of_is hlast (by decide)]
      decide
    have hopen : Legible (ofSymbol '(' (by decide) :: (bare ++ [last])) :=
      hend.cons (show inert '(' by decide)
    exact isChain_cons.2 ⟨fun _ _ _ => .inl (cons_ne_nil _ _), hopen⟩
  · rw [hcells, head?_cons, head?_cons, Option.map_some, Option.map_some, ← shape_small first]
    rfl
  · rw [hcells, ← cons_append, ← cons_append, getLast?_concat, ← cons_append,
      ← cons_append, getLast?_concat]

/-- The list of a match loses its quotes at every index, or at none. It loses them if it is a list
of quoted numbers. -/
theorem exists_unquoteAt {lead : σ → Text} (hlead : ∀ s, Heading (lead s)) (pre : Row σ)
    (taken : Row.Taken σ) (hlegible : Row.Legible (pre ++ (taken.cells ++ taken.later)))
    (htakes : Row.Takes IdList.inPattern.blocks taken.cells taken.captures) :
    ∃ new, Row.Rewrite "in".toList taken.cells new ∧ (∀ s,
      unquoteAt (lead s ++ Row.text s (pre ++ (taken.cells ++ taken.later)))
          (taken.report s (lead s) pre) =
        .ok (lead s ++ Row.text s (pre ++ (new ++ taken.later)))) ∧
      ((∀ s, IdList.applies (lead s ++ Row.text s (pre ++ (taken.cells ++ taken.later)))
          (taken.report s (lead s) pre) = .ok false) ∧ new = taken.cells ∨
        (∀ s, IdList.applies (lead s ++ Row.text s (pre ++ (taken.cells ++ taken.later)))
          (taken.report s (lead s) pre) = .ok true) ∧ ∃ (word number : Text)
            (numbers : List Text), word.toLowerAscii = "in".toList ∧
            (∀ digits ∈ number :: numbers, IdList.IsNumber digits) ∧
            Row.keys taken.cells = (word, false) :: (['('], false) ::
              (IdList.listKeys ((number :: numbers).map IdList.quoted) ++ [([')'], false)]) ∧
            Row.keys new = ("in".toList, false) :: (['('], false) ::
              (IdList.listKeys (number :: numbers) ++ [([')'], false)])) := by
  rw [blocks_inPattern] at htakes
  obtain ⟨first, _, hcells, hfirst, opening, _, rfl, hopening, list, last, _, _, rfl, hcaptures,
    hclosed, hlast, rfl, rfl⟩ := htakes
  have hwhole : Row.Legible taken.cells := hlegible.of_isInfix (infix_append' _ _ _)
  have hget : taken.get "i".toList = list := by
    rw [Row.Taken.get, hcaptures]
    rfl
  have hlist : Row.Legible list := by
    refine hwhole.of_isInfix ⟨[first, opening], [last], ?_⟩
    rw [hcells]
    rfl
  obtain ⟨b, hnumbers, happlies⟩ := exists_applies hlead pre taken hlegible (hget ▸ hlist)
    (hget ▸ hclosed)
  cases b with
  | false =>
    refine ⟨taken.cells, ⟨hwhole, rfl, rfl, Nat.le_refl _, Nat.le_refl _⟩, fun s => ?_,
      .inl ⟨happlies, rfl⟩⟩
    rw [unquoteAt, happlies s]
    rfl
  | true =>
    obtain ⟨segment, rest, hsplit, hrow, hcommas⟩ := exists_commas 0 (Row.trimEnd list)
    have hall := hnumbers rfl
    rw [hget, hsplit, all_cons, Bool.and_eq_true, all_map, all_eq_true] at hall
    obtain ⟨number, numbers, bare, hbare, hweight, hdigits, hkeys, hbareKeys, htext⟩ :=
      exists_bare hall.1 fun entry hentry => ⟨hcommas entry hentry, hall.2 entry hentry⟩
    have hrewrite := rewrite_bare hcells hlast hbare hweight
    have hin : (first.small.spaced [' '] blank_space).lexeme.text = "in".toList :=
      Cell.text_small_of_is hfirst
    have hfirstLiteral : (first.small.spaced [' '] blank_space).lexeme.isLiteral = false :=
      (Lexeme.isLiteral_small _).trans (Cell.is_iff.1 hfirst).1
    have his : ∀ {cell : Cell σ} {t : Text}, cell.is t →
        cell.lexeme.keys = [(cell.lexeme.text, false)] := fun h =>
      Lexeme.keys_of_isLiteral_eq_false (Cell.is_iff.1 h).1
    refine ⟨_, hrewrite, fun s => ?_, .inr ⟨happlies, first.lexeme.text, number, numbers,
      (Cell.is_iff.1 hfirst).2, hdigits, ?_, ?_⟩⟩
    · have hbody : Row.body s (first.small.spaced [' '] blank_space ::
          .ofSymbol '(' (by decide) :: (bare ++ [last])) =
            "in (".toList ++ (Row.text s (Row.trimEnd list)).filter (· != '\'') ++ [')'] := by
        rw [← cons_append, ← cons_append, body_concat,
          Cell.text_of_is hlast (by decide), hrow, ← htext s, text_cons, hin]
        rfl
      rw [unquoteAt, happlies s, ok_bind, if_pos rfl, Row.Taken.capture_report, hget]
      have hslice := hrewrite.replaceSlice_text (by rw [hcells]; simp) s (lead s) pre taken.later
      rw [hbody] at hslice
      exact hslice
    · rw [hcells, Row.keys_cons, Row.keys_cons, Row.keys_append, ← keys_trimEnd list, hrow, hkeys,
        Row.keys_cons last, his hfirst, his hopening, his hlast,
        Cell.text_of_is hopening (by decide), Cell.text_of_is hlast (by decide)]
      rfl
    · rw [Row.keys_cons, Row.keys_cons, Row.keys_append, hbareKeys, Row.keys_cons last, his hlast,
        Cell.text_of_is hlast (by decide), Lexeme.keys_of_isLiteral_eq_false hfirstLiteral, hin,
        Lexeme.keys_of_isLiteral_eq_false rfl]
      rfl

theorem step_unquoteAt (state : Progress) : step state = do
    match ← findClause state.sql inPattern state.first with
    | none => return none
    | some found => return some ⟨← unquoteAt state.sql found, found.startToken + 1⟩ := by
  rw [step]
  congr 1
  funext found
  cases found with
  | none => rfl
  | some found =>
    simp only [unquoteAt, bind_assoc]
    congr 1
    funext b
    cases b <;> rfl

/-- The run over all membership tests ends with a row. -/
theorem Row.exists_unquoteNumbers {lead : σ → Text} (hlead : ∀ s, Heading (lead s)) {row : Row σ}
    (hlegible : Legible row) (hdollar : Unmarked row) :
    ∃ row', Legible row' ∧ ∀ s,
      unquoteNumbers (lead s ++ text s row) = .ok (lead s ++ text s row') := by
  obtain ⟨row', hlegible', -, -, hrun⟩ := exists_run blocks_inPattern (by decide) _
    step_unquoteAt hlead (fun pre taken hlegible _ htakes => by
      obtain ⟨new, hnew, htext, -⟩ := exists_unquoteAt hlead pre taken hlegible htakes
      exact ⟨new, hnew, htext⟩) hlegible hdollar
  exact ⟨row', hlegible', hrun⟩

end Layout

end SqlScript
