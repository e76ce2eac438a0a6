import SqlScript.Proofs.Uncommented

/-!
# Sums as nested calls

Each step of the rewriting of a sum joins the first `+ a + b +` it finds, and the next step looks
again from the start. As long as the sum has two operands, that is its first two, so the operands
become calls nested to the left (`Layout.repeatSteps_summands`).

Then the search goes on inside of the operands. What stands between two pluses has balanced
parentheses, so a match that starts inside of an operand ends in it
(`BigQuery.Concat.holdsSum_append`). The run ends with the nested calls if and only if no operand
holds three pluses with operands between them (`BigQuery.Concat.concatExpression_eq_nested_iff`);
the middle ones of such a sum are joined even where it is a sum of numbers.
-/

namespace SqlScript

open Layout.Row

/-! ## The end of a run -/

section

variable {State : Type} {step : State → Except Error (Option State)} {limit : Nat}
  {state final : State}

/-- A run ends where no step applies. -/
theorem step_of_repeatSteps (h : repeatSteps step limit state = .ok final) :
    step final = .ok none := by
  induction limit generalizing state with
  | zero => simp [repeatSteps] at h
  | succ limit ih =>
    rw [repeatSteps] at h
    obtain ⟨next, hnext, h⟩ := exists_of_bind_eq_ok h
    cases next with
    | none =>
      cases h
      exact hnext
    | some next => exact ih h

end

/-! ## Operands by their tokens -/

namespace BigQuery.Concat

/-- The symbol outside of quotes. -/
def mark (c : Char) : Text × Bool :=
  ([c], false)

/-- How many parentheses are open after the token. -/
def depthAfter (depth : Nat) (key : Text × Bool) : Nat :=
  if key == mark '(' then depth + 1 else if key == mark ')' then depth - 1 else depth

/-- Whether every parenthesis is closed when so many are open before the tokens, and no `+`, no `;`
and no `)` stands where none is open. -/
def isOperand (depth : Nat) : List (Text × Bool) → Bool
  | [] => depth == 0
  | key :: keys =>
    !(depth == 0 && (key == mark '+' || (key == mark ';' || key == mark ')'))) &&
      isOperand (depthAfter depth key) keys

/-- An operand of a sum : a text without comments and with closed quotes and parentheses, in which
no `+` and no `;` stands outside of these. -/
structure Operand (t : Text) : Prop where
  free : Layout.isCommentFree (chunks t) = true
  closed : ∃ run, tokenize t = .ok run
  parts : isOperand 0 t.keys = true

/-- Three pluses stand among the tokens, with an operand between each two. -/
def HoldsSum (keys : List (Text × Bool)) : Prop :=
  ∃ front a b back, keys = front ++ mark '+' :: (a ++ mark '+' :: (b ++ mark '+' :: back)) ∧
    isOperand 0 a = true ∧ isOperand 0 b = true

/-- The call of two operands. -/
def call (a b : Text) : Text :=
  "concat(".toList ++ a ++ ", ".toList ++ b ++ [')']

/-- The operands as calls that are nested to the left. -/
def nested (first : Text) (others : List Text) : Text :=
  others.foldl (fun sum operand => call sum operand.trim) first.trim

theorem trimEnd_call (a b : Text) : (call a b).trimEnd = call a b := by
  have hclose : isBlank ')' = false := by decide
  have htrim := Text.trimEnd_append_cons ("concat(".toList ++ a ++ ", ".toList ++ b) hclose []
  rwa [Text.trimEnd_of_blank Text.blank_nil] at htrim

variable {depth : Nat} {key : Text × Bool} {keys front back : List (Text × Bool)}

theorem isOperand_cons : isOperand depth (key :: keys) ↔
    ¬ (depth = 0 ∧ (key = mark '+' ∨ key = mark ';' ∨ key = mark ')')) ∧
      isOperand (depthAfter depth key) keys := by
  simp only [isOperand, Bool.and_eq_true, Bool.not_eq_true', Bool.and_eq_false_imp, beq_iff_eq,
    Bool.or_eq_false_iff, beq_eq_false_iff_ne, not_and, not_or, ne_eq]

theorem depthAfter_add (hkey : ¬ (depth = 0 ∧ key = mark ')')) (outer : Nat) :
    depthAfter (depth + outer) key = depthAfter depth key + outer := by
  simp only [depthAfter, beq_iff_eq]
  split
  · omega
  · split
    · rename_i hclose
      have hdepth : depth ≠ 0 := fun hdepth => hkey ⟨hdepth, hclose⟩
      omega
    · rfl

/-- An operand is passed over, whatever is open around it. -/
theorem isOperand_append (h : isOperand depth front) (outer : Nat)
    (back : List (Text × Bool)) :
    isOperand (depth + outer) (front ++ back) ↔ isOperand outer back := by
  induction front generalizing depth with
  | nil =>
    obtain rfl : depth = 0 := by simpa [isOperand] using h
    rw [Nat.zero_add, List.nil_append]
  | cons key front ih =>
    obtain ⟨hkey, h⟩ := isOperand_cons.1 h
    rw [List.cons_append, isOperand_cons,
      depthAfter_add (fun hclose => hkey ⟨hclose.1, .inr (.inr hclose.2)⟩), ih h]
    exact and_iff_right fun hplain => hkey ⟨by omega, hplain.2⟩

/-- An operand does not start with tokens that close more than is open before them. -/
theorem not_isOperand_append {outer : Nat} (h : isOperand (depth + (outer + 1)) front) :
    ¬ isOperand depth (front ++ back) := by
  induction front generalizing depth with
  | nil => simp [isOperand] at h
  | cons key front ih =>
    intro hoperand
    rw [List.cons_append] at hoperand
    obtain ⟨hkey, hoperand⟩ := isOperand_cons.1 hoperand
    rw [isOperand_cons, depthAfter_add (fun hclose => hkey ⟨hclose.1, .inr (.inr hclose.2)⟩)] at h
    exact ih h.2 hoperand

/-- A plus of an operand stands in parentheses, which are closed behind it. -/
theorem exists_isOperand_of_plus (h : isOperand depth (front ++ mark '+' :: back)) :
    ∃ outer, isOperand (outer + 1) back := by
  induction front generalizing depth with
  | nil =>
    obtain ⟨hplus, hback⟩ := isOperand_cons.1 h
    cases depth with
    | zero => exact absurd ⟨rfl, .inl rfl⟩ hplus
    | succ outer => exact ⟨outer, hback⟩
  | cons key front ih => exact ih (isOperand_cons.1 h).2

/-- Tokens that close a parenthesis hold all of an operand they start with, and the plus
behind it. -/
theorem exists_append_of_isOperand {outer : Nat} {a x rest later : List (Text × Bool)}
    (hx : isOperand (outer + 1) x) (ha : isOperand 0 a)
    (heq : x ++ rest = a ++ mark '+' :: later) :
    ∃ x', x = a ++ mark '+' :: x' ∧ later = x' ++ rest ∧ isOperand (outer + 1) x' := by
  rcases List.append_eq_append_iff.1 heq with ⟨more, rfl, -⟩ | ⟨x', rfl, hrest⟩
  · rw [← Nat.zero_add (outer + 1)] at hx
    exact absurd ha (not_isOperand_append hx)
  · rw [← Nat.zero_add (outer + 1), isOperand_append ha] at hx
    cases x' with
    | nil => simp [isOperand] at hx
    | cons key x' =>
      cases hrest
      exact ⟨x', rfl, rfl, (isOperand_cons.1 hx).2⟩

/-- Tokens that are none of the symbols are passed over. -/
theorem isOperand_append_of_forall
    (h : ∀ key ∈ front, key ∉ [mark '+', mark ';', mark '(', mark ')'])
    (back : List (Text × Bool)) : isOperand depth (front ++ back) = isOperand depth back := by
  induction front with
  | nil => rfl
  | cons key front ih =>
    rw [List.forall_mem_cons] at h
    simp only [List.mem_cons, List.not_mem_nil, or_false, not_or] at h
    obtain ⟨⟨hplus, hsemicolon, hopen, hclose⟩, hfront⟩ := h
    rw [List.cons_append, isOperand, depthAfter, beq_false_of_ne hplus,
      beq_false_of_ne hsemicolon, beq_false_of_ne hopen, beq_false_of_ne hclose,
      ← ih (by simpa using hfront)]
    simp

theorem HoldsSum.append (h : HoldsSum keys) (front back : List (Text × Bool)) :
    HoldsSum (front ++ (keys ++ back)) := by
  obtain ⟨front', a, b, back', rfl, ha, hb⟩ := h
  exact ⟨front ++ front', a, b, back' ++ back, by simp, ha, hb⟩

/-- Three pluses that stand among an operand and the tokens behind it stand in one of both. -/
theorem holdsSum_append (h : isOperand depth front) (back : List (Text × Bool)) :
    HoldsSum (front ++ back) ↔ HoldsSum front ∨ HoldsSum back := by
  refine ⟨?_, ?_⟩
  · rintro ⟨before, a, b, later, heq, ha, hb⟩
    rcases List.append_eq_append_iff.1 heq with ⟨before', -, hback⟩ | ⟨inside, rfl, hinside⟩
    · exact .inr ⟨before', a, b, later, hback, ha, hb⟩
    cases inside with
    | nil => exact .inr ⟨[], a, b, later, hinside.symm, ha, hb⟩
    | cons key inside =>
      -- the first plus is one of the operand, so the parentheses around it bound the match
      obtain ⟨rfl, hfirst⟩ := List.cons.inj hinside
      obtain ⟨outer, hclosing⟩ := exists_isOperand_of_plus h
      obtain ⟨inside, rfl, hsecond, hclosing⟩ :=
        exists_append_of_isOperand hclosing ha hfirst.symm
      obtain ⟨inside, rfl, -, -⟩ := exists_append_of_isOperand hclosing hb hsecond.symm
      exact .inl ⟨before, a, b, inside, rfl, ha, hb⟩
  · rintro (hfront | hback)
    · exact hfront.append [] back
    · have hsum := hback.append front []
      rwa [List.append_nil] at hsum

theorem HoldsSum.le_count (h : HoldsSum keys) : 3 ≤ keys.count (mark '+') := by
  obtain ⟨front, a, b, back, rfl, -, -⟩ := h
  simp only [List.count_append, List.count_cons_self]
  omega

theorem holdsSum_cons (hkey : key ≠ mark '+') : HoldsSum (key :: keys) ↔ HoldsSum keys := by
  refine ⟨?_, fun h => ?_⟩
  · rintro ⟨before, a, b, later, heq, ha, hb⟩
    cases before with
    | nil => exact absurd (List.cons.inj heq).1 hkey
    | cons _ before => exact ⟨before, a, b, later, (List.cons.inj heq).2, ha, hb⟩
  · have hsum := h.append [key] []
    rwa [List.append_nil] at hsum

/-- Between two pluses an operand is not joined with anything. -/
theorem holdsSum_between (h : isOperand 0 keys) :
    HoldsSum (mark '+' :: (keys ++ [mark '+'])) ↔ HoldsSum keys := by
  refine ⟨?_, fun hsum => hsum.append [mark '+'] [mark '+']⟩
  rintro ⟨before, a, b, later, heq, ha, hb⟩
  cases before with
  | nil =>
    -- the operand behind the first plus is all of them, so only one plus is left
    obtain ⟨-, heq⟩ := List.cons.inj heq
    rcases List.append_eq_append_iff.1 heq with ⟨more, -, hmore⟩ | ⟨inside, rfl, hinside⟩
    · have hlength := congrArg List.length hmore
      simp only [List.length_append, List.length_cons, List.length_nil] at hlength
      omega
    · rw [← Nat.add_zero 0, isOperand_append ha] at h
      cases inside with
      | nil => simp at hinside
      | cons key inside =>
        obtain ⟨rfl, -⟩ := List.cons.inj hinside
        exact absurd ⟨rfl, .inl rfl⟩ (isOperand_cons.1 h).1
  | cons key before =>
    have hsum : HoldsSum (keys ++ [mark '+']) :=
      ⟨before, a, b, later, (List.cons.inj heq).2, ha, hb⟩
    refine ((holdsSum_append h _).1 hsum).resolve_right fun hplus => ?_
    exact absurd hplus.le_count (by decide)

end BigQuery.Concat

/-! ## Operands in rows -/

namespace Layout

open BigQuery BigQuery.Concat Layout.Row

variable {σ : Type} {depth : Nat} {row : Row σ}

theorem mark_notMem_keys {lexeme : Lexeme} (h : lexeme.isLiteral) {c : Char}
    (hplain : (PatternBlock.literal [c]).Plain) : mark c ∉ lexeme.keys := by
  intro hmem
  obtain ⟨token, htoken, hkey⟩ := List.mem_map.1 hmem
  obtain ⟨htext, hquotes⟩ := Prod.ext_iff.1 hkey
  have his := Lexeme.is_of_mem_tokens h hplain htoken
  rw [Token.is, show token.text = [c] from htext, show token.inQuotes = false from hquotes] at his
  simp [Text.eqFolded] at his

/-- A cell is a symbol if its only token is. -/
theorem beq_mark {cell : Cell σ} (h : cell.lexeme.isLiteral = false) {c : Char}
    (hc : c.isLower = false) (hsmall : c.toLower = c) :
    ((cell.lexeme.text, false) == mark c) = cell.is [c] := by
  rw [Bool.eq_iff_iff, beq_iff_eq, Cell.is_singleton_iff hc hsmall, mark, Prod.mk.injEq]
  simp [h]

theorem isOperand_keys_cons (cell : Cell σ) (row : Row σ) :
    isOperand depth (keys (cell :: row)) =
      (!(depth == 0 && (cell.is ['+'] || (cell.is [';'] || cell.is [')']))) &&
        isOperand (cell.depthAfter depth) (keys row)) := by
  rw [keys_cons]
  cases hcell : cell.lexeme.isLiteral with
  | true =>
    have his : ∀ text, cell.is text = false := fun text => by simp [Cell.is, hcell]
    rw [isOperand_append_of_forall, Cell.depthAfter]
    · simp [his]
    · intro key hkey
      simp only [List.mem_cons, List.not_mem_nil, or_false, not_or]
      refine ⟨?_, ?_, ?_, ?_⟩ <;> rintro rfl
      all_goals exact mark_notMem_keys hcell (by decide) hkey
  | false =>
    rw [Lexeme.keys_of_isLiteral_eq_false hcell, List.singleton_append, isOperand, depthAfter,
      Cell.depthAfter]
    simp only [beq_mark hcell (show '+'.isLower = false by decide) (by decide),
      beq_mark hcell (show ';'.isLower = false by decide) (by decide),
      beq_mark hcell (show '('.isLower = false by decide) (by decide),
      beq_mark hcell (show ')'.isLower = false by decide) (by decide)]

/-- A variable before a plus takes an operand. -/
theorem isOperand_of_stop? {stop : Stop σ} (h : stop? ['+'] depth row = some stop) :
    isOperand depth (keys stop.segment) := by
  induction row generalizing depth stop with
  | nil => simp [stop?] at h
  | cons cell row ih =>
    rw [stop?] at h
    split at h
    · rename_i hstop
      cases h
      exact (Bool.and_eq_true_iff.1 hstop).1
    · rename_i hplus
      split at h
      · simp at h
      · rename_i hfree
        obtain ⟨stop', hstop', rfl⟩ := Option.map_eq_some_iff.1 h
        rw [isOperand_keys_cons, ih hstop', Bool.and_true, Bool.and_or_distrib_left,
          Bool.eq_false_of_not_eq_true hplus, Bool.eq_false_of_not_eq_true hfree]
        rfl

/-- An operand before a plus is all that a variable takes. -/
theorem stop?_of_isOperand {a : Row σ} (h : isOperand depth (keys a)) {plus : Cell σ}
    (hplus : plus.is ['+']) (later : Row σ) :
    stop? ['+'] depth (a ++ plus :: later) = some ⟨a, plus, later⟩ := by
  induction a generalizing depth with
  | nil =>
    obtain rfl : depth = 0 := by simpa [isOperand, keys] using h
    rw [List.nil_append, stop?, hplus]
    rfl
  | cons cell a ih =>
    rw [isOperand_keys_cons, Bool.and_eq_true_iff, Bool.not_eq_true', Bool.and_or_distrib_left,
      Bool.or_eq_false_iff] at h
    rw [List.cons_append, stop?, h.1.1, h.1.2, ih h.2]
    rfl

/-- Two operands between pluses. -/
theorem take?_operands {a b : Row σ} {first mid last : Cell σ} (hfirst : first.is ['+'])
    (ha : isOperand 0 (keys a)) (hmid : mid.is ['+'])
    (hb : isOperand 0 (keys b)) (hlast : last.is ['+']) (later : Row σ) :
    take? operandsPattern.blocks (first :: (a ++ mid :: (b ++ last :: later))) =
      some ⟨first :: (a ++ mid :: (b ++ [last])), [("a".toList, a), ("b".toList, b)], later⟩ := by
  simp [blocks_operandsPattern, take?, hfirst, stop?_of_isOperand ha hmid,
    stop?_of_isOperand hb hlast]

theorem keys_cons_of_is {cell : Cell σ} {c : Char} (h : cell.is [c])
    (hc : c.isLower = false) (row : Row σ) : keys (cell :: row) = mark c :: keys row := by
  rw [keys_cons, Lexeme.keys_of_isLiteral_eq_false (Cell.is_iff.1 h).1, Cell.text_of_is h hc]
  rfl

/-- A symbol among the tokens of a row is one of its cells. -/
theorem exists_cell_of_keys {c : Char} (hplain : (PatternBlock.literal [c]).Plain)
    (hc : c.isLower = false) (hsmall : c.toLower = c) {front back : List (Text × Bool)}
    (h : keys row = front ++ mark c :: back) : ∃ before cell after, row = before ++ cell :: after ∧
      cell.is [c] ∧ keys before = front ∧ keys after = back := by
  induction row generalizing front with
  | nil => simp [keys] at h
  | cons cell row ih =>
    rw [keys_cons] at h
    rcases List.append_eq_append_iff.1 h with ⟨front', rfl, hrow⟩ | ⟨inside, hcell, hinside⟩
    · obtain ⟨before, plus, after, rfl, hplus, rfl, hafter⟩ := ih hrow
      exact ⟨cell :: before, plus, after, rfl, hplus, rfl, hafter⟩
    · cases inside with
      | nil =>
        obtain ⟨before, plus, after, rfl, hplus, hbefore, hafter⟩ := @ih [] hinside.symm
        exact ⟨cell :: before, plus, after, rfl, hplus, by simp [hbefore, hcell], hafter⟩
      | cons key inside =>
        obtain ⟨rfl, hback⟩ := List.cons.inj hinside
        cases hliteral : cell.lexeme.isLiteral with
        | true =>
          refine absurd ?_ (mark_notMem_keys hliteral hplain)
          simp [hcell]
        | false =>
          rw [Lexeme.keys_of_isLiteral_eq_false hliteral] at hcell
          obtain ⟨rfl, hkey⟩ | ⟨-, hnil⟩ := List.append_eq_singleton_iff.1 hcell.symm
          · obtain ⟨hhead, rfl⟩ := List.cons.inj hkey
            obtain ⟨htext, -⟩ := Prod.ext_iff.1 hhead
            exact ⟨[], cell, row, rfl,
              (Cell.is_singleton_iff hc hsmall).2 ⟨hliteral, htext.symm⟩, rfl, hback.symm⟩
          · exact absurd hnil (List.cons_ne_nil _ _)

/-- What is found in a row is two operands between pluses. -/
theorem holdsSum_of_take? {taken : Taken σ} (h : take? operandsPattern.blocks row = some taken) :
    HoldsSum (keys row) := by
  rw [blocks_operandsPattern] at h
  cases row with
  | nil => simp [take?] at h
  | cons first row =>
    simp only [take?] at h
    split at h
    · rename_i hfirst
      obtain ⟨_, h, -⟩ := Option.map_eq_some_iff.1 h
      obtain ⟨stop, hstop, h⟩ := Option.bind_eq_some_iff.1 h
      obtain ⟨_, h, -⟩ := Option.map_eq_some_iff.1 h
      obtain ⟨stop', hstop', -⟩ := Option.bind_eq_some_iff.1 h
      obtain ⟨rfl, hmid, -⟩ := eq_of_stop? hstop
      obtain ⟨hrow, hlast, -⟩ := eq_of_stop? hstop'
      refine ⟨[], keys stop.segment, keys stop'.segment, keys stop'.later, ?_,
        isOperand_of_stop? hstop, isOperand_of_stop? hstop'⟩
      rw [keys_cons_of_is hfirst (by decide), keys_append, keys_cons_of_is hmid (by decide), hrow,
        keys_append, keys_cons_of_is hlast (by decide)]
      rfl
    · simp at h

theorem take?_eq_none_of_locate? {blocks : List PatternBlock} {front : Row σ} {cell : Cell σ}
    (h : locate? blocks (front ++ cell :: row) = none) : take? blocks (cell :: row) = none := by
  induction front with
  | nil =>
    rw [List.nil_append, locate?] at h
    split at h
    · simp at h
    · assumption
  | cons other front ih =>
    rw [List.cons_append, locate?] at h
    split at h
    · simp at h
    · exact ih (Option.map_eq_none_iff.1 h)

/-- Two operands are found if and only if three pluses stand around them. -/
theorem locate?_operands_eq_none_iff :
    locate? operandsPattern.blocks row = none ↔ ¬ HoldsSum (keys row) := by
  refine ⟨?_, fun h => ?_⟩
  · rintro hnone ⟨front, x, y, back, hkeys, hx, hy⟩
    have hcell : ∀ {row : Row σ} {front back : List (Text × Bool)},
        keys row = front ++ mark '+' :: back → ∃ before cell after, row = before ++ cell :: after ∧
          cell.is ['+'] ∧ keys before = front ∧ keys after = back :=
      exists_cell_of_keys (by decide) (by decide) (by decide)
    obtain ⟨_, first, _, rfl, hfirst, -, hbehind⟩ := hcell hkeys
    obtain ⟨a, mid, _, rfl, hmid, rfl, hbehind'⟩ := hcell hbehind
    obtain ⟨b, last, later, rfl, hlast, rfl, -⟩ := hcell hbehind'
    have htake := take?_eq_none_of_locate? hnone
    rw [take?_operands hfirst hx hmid hy hlast] at htake
    simp at htake
  · induction row with
    | nil => rfl
    | cons cell row ih =>
      cases htake : take? operandsPattern.blocks (cell :: row) with
      | some taken => exact absurd (holdsSum_of_take? htake) h
      | none =>
        rw [locate?, htake, ih fun hsum => h ?_]
        · rfl
        · have hmore := hsum.append cell.lexeme.keys []
          rwa [List.append_nil] at hmore

theorem locate?_eq_none_of_joinStep (h : Legible row) (s : σ)
    (hstep : joinStep (text s row) = .ok none) : locate? operandsPattern.blocks row = none := by
  cases hlocate : locate? operandsPattern.blocks row with
  | none => rfl
  | some found =>
    rw [joinStep, findClause_operands h s, hlocate, Option.map_some, ok_bind] at hstep
    obtain ⟨_, -, hstep⟩ := exists_of_bind_eq_ok hstep
    simp [pure, Except.pure] at hstep

/-! ## Calls in rows -/

/-- The call of two operands. -/
def callRow (a b : Row σ) : Row σ :=
  (callCells a b).tail

theorem callCells_eq_cons (a b : Row σ) : callCells a b = plusCell :: callRow a b :=
  rfl

theorem legible_callRow {a b : Row σ} (ha : Legible a) (hb : Legible b) : Legible (callRow a b) :=
  (List.isChain_cons.1 (legible_callCells ha hb)).2

theorem text_callRow (s : σ) (a b : Row σ) : text s (callRow a b) = call (text s a) (text s b) := by
  have htext := text_callCells s a b
  rw [callCells_eq_cons, text_cons] at htext
  exact (List.cons.inj htext).2

theorem text_trimEnd_callRow (s : σ) (a b : Row σ) :
    text s (trimEnd (callRow a b)) = text s (callRow a b) := by
  rw [text_trimEnd, text_callRow, trimEnd_call]

theorem keys_callRow (a b : Row σ) : keys (callRow a b) =
    ("concat".toList, false) :: mark '(' :: (keys a ++ mark ',' :: (keys b ++ [mark ')'])) := by
  have hsymbol : ∀ {cell : Cell σ} {c : Char}, c.isLower = false → cell.is [c] →
      ∀ row, keys (cell :: row) = mark c :: keys row := fun hc h => keys_cons_of_is h hc
  rw [callRow, callCells, List.tail_cons, keys_cons, Lexeme.keys_of_isLiteral_eq_false rfl,
    hsymbol (c := '(') (by decide) rfl, keys_append, hsymbol (c := ',') (by decide) rfl,
    keys_append, hsymbol (c := ')') (by decide) rfl]
  rfl

theorem isOperand_callRow {a b : Row σ} (ha : isOperand 0 (keys a))
    (hb : isOperand 0 (keys b)) : isOperand 0 (keys (callRow a b)) := by
  have hinside : isOperand (0 + 1) (keys a ++ mark ',' :: (keys b ++ [mark ')'])) := by
    rw [isOperand_append ha, isOperand_cons]
    refine ⟨by decide, ?_⟩
    exact (isOperand_append hb 1 _).2 (by decide)
  rw [keys_callRow, isOperand_cons, isOperand_cons]
  exact ⟨by decide, by decide, hinside⟩

theorem holdsSum_callRow {a b : Row σ} (ha : isOperand 0 (keys a))
    (hb : isOperand 0 (keys b)) :
    HoldsSum (keys (callRow a b)) ↔ HoldsSum (keys a) ∨ HoldsSum (keys b) := by
  have hclose : ¬ HoldsSum [mark ')'] := fun h => absurd h.le_count (by decide)
  rw [keys_callRow, holdsSum_cons (by decide), holdsSum_cons (by decide), holdsSum_append ha,
    holdsSum_cons (by decide), holdsSum_append hb, or_iff_left hclose]

/-! ## The operands of a sum -/

/-- A plus with an operand behind it. -/
structure IsSummand (entry : Cell σ × Row σ) : Prop where
  plus : entry.1.is ['+'] = true
  legible : Legible entry.2
  operand : isOperand 0 (keys entry.2) = true

/-- The operands with their pluses, and a plus behind them. -/
def summands : List (Cell σ × Row σ) → Row σ
  | [] => [plusCell]
  | entry :: entries => entry.1 :: (entry.2 ++ summands entries)

/-- The call of the operands behind two pluses. -/
def joined (first second : Cell σ × Row σ) : Cell σ × Row σ :=
  (plusCell, callRow (trimEnd first.2) (trimEnd second.2))

variable {first second : Cell σ × Row σ} {entries : List (Cell σ × Row σ)}

theorem IsSummand.joined (hfirst : IsSummand first) (hsecond : IsSummand second) :
    IsSummand (joined first second) where
  plus := rfl
  legible := legible_callRow hfirst.legible.trimEnd hsecond.legible.trimEnd
  operand := by
    refine isOperand_callRow ?_ ?_
    · exact (keys_trimEnd first.2).symm ▸ hfirst.operand
    · exact (keys_trimEnd second.2).symm ▸ hsecond.operand

theorem exists_plus (h : ∀ entry ∈ entries, IsSummand entry) :
    ∃ plus rest, summands entries = plus :: rest ∧ plus.is ['+'] := by
  cases entries with
  | nil => exact ⟨plusCell, [], rfl, rfl⟩
  | cons entry entries => exact ⟨entry.1, _, rfl, (h entry List.mem_cons_self).plus⟩

theorem legible_summands (h : ∀ entry ∈ entries, IsSummand entry) : Legible (summands entries) := by
  have hplus : ∀ {plus : Cell σ}, plus.is ['+'] → plus.lexeme.text = ['+'] :=
    fun his => Cell.text_of_is his (by decide)
  induction entries with
  | nil => exact List.isChain_singleton _
  | cons entry entries ih =>
    rw [List.forall_mem_cons] at h
    obtain ⟨next, rest, hnext, his⟩ := exists_plus h.2
    have hrest := ih h.2
    rw [hnext] at hrest
    rw [summands, hnext]
    refine (h.1.legible.append_cons hrest ?_).cons ?_
    · rw [hplus his]
      decide
    · rw [hplus h.1.plus]
      decide

/-- While a sum has two operands, a step joins the first two. -/
theorem joinStep_summands (h : ∀ entry ∈ first :: second :: entries, IsSummand entry) (s : σ) :
    joinStep (text s (summands (first :: second :: entries))) =
      .ok (some (text s (summands (joined first second :: entries)))) := by
  have hlegible := legible_summands h
  rw [List.forall_mem_cons, List.forall_mem_cons] at h
  obtain ⟨hfirst, hsecond, hentries⟩ := h
  obtain ⟨last, later, hlast, his⟩ := exists_plus hentries
  simp only [summands, hlast] at hlegible ⊢
  have htake := take?_operands hfirst.plus hfirst.operand hsecond.plus hsecond.operand his later
  rw [joinStep_of_locate? hlegible s (locate?_of_take? htake (List.cons_ne_nil _ _)) rfl
    hfirst.plus hsecond.plus his rfl]
  simp [joined, callCells_eq_cons]

/-- The first steps of a run join all operands, from the left. -/
theorem repeatSteps_summands (h : ∀ entry ∈ first :: entries, IsSummand entry) (s : σ)
    (limit : Nat) :
    repeatSteps joinStep (limit + entries.length) (text s (summands (first :: entries))) =
      repeatSteps joinStep limit (text s (summands [entries.foldl joined first])) := by
  induction entries generalizing first with
  | nil => rfl
  | cons second entries ih =>
    have hstep := joinStep_summands h s
    rw [List.forall_mem_cons, List.forall_mem_cons] at h
    rw [List.length_cons, ← Nat.add_assoc, repeatSteps, hstep, ok_bind, List.foldl_cons]
    exact ih (List.forall_mem_cons.2 ⟨h.1.joined h.2.1, h.2.2⟩)

theorem isSummand_foldl (h : ∀ entry ∈ first :: entries, IsSummand entry) :
    IsSummand (entries.foldl joined first) := by
  induction entries generalizing first with
  | nil => exact h first List.mem_cons_self
  | cons second entries ih =>
    rw [List.forall_mem_cons, List.forall_mem_cons] at h
    exact ih (List.forall_mem_cons.2 ⟨h.1.joined h.2.1, h.2.2⟩)

/-- The call holds three pluses around two operands if one of its operands does. -/
theorem holdsSum_foldl (h : ∀ entry ∈ first :: entries, IsSummand entry) :
    HoldsSum (keys (entries.foldl joined first).2) ↔
      ∃ entry ∈ first :: entries, HoldsSum (keys entry.2) := by
  induction entries generalizing first with
  | nil => simp
  | cons second entries ih =>
    rw [List.forall_mem_cons, List.forall_mem_cons] at h
    have hjoined : HoldsSum (keys (joined first second).2) ↔
        HoldsSum (keys first.2) ∨ HoldsSum (keys second.2) := by
      have hcall := holdsSum_callRow (a := trimEnd first.2) (b := trimEnd second.2)
      rw [keys_trimEnd, keys_trimEnd] at hcall
      exact hcall h.1.operand h.2.1.operand
    rw [List.foldl_cons, ih (List.forall_mem_cons.2 ⟨h.1.joined h.2.1, h.2.2⟩),
      List.exists_mem_cons_iff, List.exists_mem_cons_iff, List.exists_mem_cons_iff, hjoined,
      or_assoc]

theorem weight_summands_cons (h : first.1.is ['+']) (entries : List (Cell σ × Row σ)) :
    weight ['+'] (summands (first :: entries)) =
      1 + weight ['+'] first.2 + weight ['+'] (summands entries) := by
  rw [summands, weight_cons_is h, weight_append, if_pos rfl, Nat.add_assoc]

/-- Each call takes the place of a plus. -/
theorem weight_foldl (h : ∀ entry ∈ first :: entries, IsSummand entry) :
    weight ['+'] (summands [entries.foldl joined first]) + entries.length =
      weight ['+'] (summands (first :: entries)) := by
  induction entries generalizing first with
  | nil => rfl
  | cons second entries ih =>
    rw [List.forall_mem_cons, List.forall_mem_cons] at h
    have hcall : weight ['+'] (joined first second).2 =
        weight ['+'] first.2 + weight ['+'] second.2 := by
      have hcells : weight ['+'] (callCells (trimEnd first.2) (trimEnd second.2)) = _ :=
        weight_callCells (by decide) _ _
      rw [callCells_eq_cons, weight_cons_is is_plusCell, weight_trimEnd, weight_trimEnd,
        Nat.add_assoc] at hcells
      exact Nat.add_left_cancel hcells
    have hrest := ih (List.forall_mem_cons.2 ⟨h.1.joined h.2.1, h.2.2⟩)
    rw [weight_summands_cons (h.1.joined h.2.1).plus, hcall] at hrest
    rw [List.foldl_cons, List.length_cons, weight_summands_cons h.1.plus,
      weight_summands_cons h.2.1.plus]
    omega

theorem exists_foldl_joined (first second : Cell σ × Row σ) (entries : List (Cell σ × Row σ)) :
    ∃ a b, (second :: entries).foldl joined first = (plusCell, callRow a b) := by
  induction entries generalizing first second with
  | nil => exact ⟨_, _, rfl⟩
  | cons third entries ih => exact ih (joined first second) third

/-- A run over an operand between pluses changes it if and only if it holds three pluses around
two operands. -/
theorem repeatSteps_wrap_eq_iff (hlegible : Legible row) (hoperand : isOperand 0 (keys row))
    {s : σ} {limit : Nat} {t : Text}
    (hrun : repeatSteps joinStep limit (text s (wrap row)) = .ok t) :
    t = text s (wrap row) ↔ ¬ HoldsSum (keys row) := by
  have hkeys : keys (wrap row) = mark '+' :: (keys row ++ [mark '+']) := by
    rw [wrap, keys_cons_of_is is_plusCell (by decide), keys_append,
      keys_cons_of_is is_plusCell (by decide)]
    rfl
  rw [← holdsSum_between hoperand, ← hkeys, ← locate?_operands_eq_none_iff]
  refine ⟨?_, fun hnone => ?_⟩
  · rintro rfl
    exact locate?_eq_none_of_joinStep (legible_wrap hlegible) s (step_of_repeatSteps hrun)
  · cases limit with
    | zero => simp [repeatSteps] at hrun
    | succ limit =>
      rw [repeatSteps, joinStep_of_locate?_eq_none (legible_wrap hlegible) s hnone] at hrun
      exact (Except.ok.inj hrun).symm

/-- A run over a sum ends, and it ends with the call of its operands if and only if none of them
holds three pluses around two operands. -/
theorem exists_repeatSteps_summands
    (h : ∀ entry ∈ first :: second :: entries, IsSummand entry) (s : σ) :
    ∃ calls row, (second :: entries).foldl joined first = (plusCell, calls) ∧
      text s (trimEnd calls) = text s calls ∧
      repeatSteps joinStep (stepLimit (text s (summands (first :: second :: entries))))
        (text s (summands (first :: second :: entries))) = .ok (text s (wrap row)) ∧
      (text s row = text s calls ↔
        ∀ entry ∈ first :: second :: entries, ¬ HoldsSum (keys entry.2)) := by
  obtain ⟨a, b, hjoined⟩ := exists_foldl_joined first second entries
  have hcalls := isSummand_foldl h
  have hholds := holdsSum_foldl h
  have hweight := weight_foldl h
  rw [hjoined] at hcalls hholds hweight
  rw [weight_summands_cons is_plusCell] at hweight
  have hlimit := lt_stepLimit ((weight_le_length ['+'] _).trans
    (length_le_length_text s (summands (first :: second :: entries))))
  obtain ⟨limit, hsplit⟩ : ∃ limit,
      stepLimit (text s (summands (first :: second :: entries))) =
        limit + (second :: entries).length :=
    Nat.exists_eq_add_of_le' (by omega)
  -- the run joins all operands, and goes on in what they have become
  obtain ⟨row, -, -, hend⟩ := exists_repeatSteps_joinStep hcalls.legible
  have hrest := hend s limit (by omega)
  have hrun := repeatSteps_summands h s limit
  rw [hjoined, ← hsplit] at hrun
  refine ⟨callRow a b, row, hjoined, text_trimEnd_callRow s a b, hrun.trans hrest, ?_⟩
  have hsame : text s (wrap row) = text s (wrap (callRow a b)) ↔
      text s row = text s (callRow a b) := by
    rw [text_wrap, text_wrap]
    simp
  rw [← hsame, repeatSteps_wrap_eq_iff hcalls.legible hcalls.operand hrest, hholds]
  simp

/-! ## Operands as texts -/

/-- A plus with the text behind it. -/
structure Summand (entry : Cell Unit × Row Unit) (t : Text) : Prop extends IsSummand entry where
  keys : Row.keys entry.2 = t.keys
  text : Row.text () (entry.1 :: entry.2) = '+' :: t
  trim : Row.text () (trimEnd entry.2) = t.trim

theorem exists_summand {t : Text} (h : Operand t) : ∃ entry, Summand entry t := by
  obtain ⟨lead, row, hlead, hlegible, rfl, hkeys, htrim⟩ := exists_trimmed h.free h.closed
  exact ⟨(plusCell.spaced lead hlead, row), ⟨rfl, hlegible, hkeys ▸ h.parts⟩, hkeys, rfl, htrim⟩

theorem exists_summands {ts : List Text} (h : ∀ t ∈ ts, Operand t) :
    ∃ entries, List.Forall₂ Summand entries ts := by
  induction ts with
  | nil => exact ⟨[], .nil⟩
  | cons t ts ih =>
    rw [List.forall_mem_cons] at h
    obtain ⟨entry, hentry⟩ := exists_summand h.1
    obtain ⟨entries, hentries⟩ := ih h.2
    exact ⟨entry :: entries, .cons hentry hentries⟩

variable {entries : List (Cell Unit × Row Unit)} {ts : List Text}

theorem text_summands (h : List.Forall₂ Summand entries ts) :
    text () (summands entries) = ts.flatMap ('+' :: ·) ++ ['+'] := by
  induction h with
  | nil => rfl
  | cons hentry _ ih =>
    rw [summands, ← List.cons_append, text_append, hentry.text, ih, List.flatMap_cons,
      List.append_assoc]

theorem cons_intercalate (t : Text) (ts : List Text) :
    '+' :: ['+'].intercalate (t :: ts) = (t :: ts).flatMap ('+' :: ·) := by
  induction ts generalizing t with
  | nil => simp
  | cons next ts ih =>
    rw [List.intercalate_cons_cons, List.flatMap_cons, ← ih]
    simp

/-- The operands joined from the left have the text of the nested calls. -/
theorem text_foldl (h : List.Forall₂ Summand entries ts) (first : Cell Unit × Row Unit) :
    text () (trimEnd (entries.foldl joined first).2) =
      ts.foldl (fun sum operand => call sum operand.trim) (text () (trimEnd first.2)) := by
  induction h generalizing first with
  | nil => rfl
  | @cons second t _ _ hsecond _ ih =>
    rw [List.foldl_cons, List.foldl_cons, ih, joined, text_trimEnd_callRow, text_callRow,
      hsecond.trim]

theorem exists_holdsSum_iff (h : List.Forall₂ Summand entries ts) :
    (∃ entry ∈ entries, HoldsSum (keys entry.2)) ↔ ∃ t ∈ ts, HoldsSum t.keys := by
  induction h with
  | nil => simp
  | cons hentry _ ih =>
    rw [List.exists_mem_cons_iff, List.exists_mem_cons_iff, hentry.keys, ih]

end Layout

namespace BigQuery.Concat

open Layout Layout.Row

/-- A sum of operands becomes calls that are nested to the left if and only if no operand holds
three pluses with operands between them. -/
theorem concatExpression_eq_nested_iff {first second : Text} {others : List Text}
    (h : ∀ operand ∈ first :: second :: others, Operand operand) :
    (∃ t, concatExpression (['+'].intercalate (first :: second :: others)) = .ok t) ∧
      (concatExpression (['+'].intercalate (first :: second :: others)) =
          .ok (nested first (second :: others)) ↔
        ∀ operand ∈ first :: second :: others, ¬ HoldsSum operand.keys) := by
  rw [List.forall_mem_cons, List.forall_mem_cons] at h
  obtain ⟨e₁, hfirst⟩ := exists_summand h.1
  obtain ⟨e₂, hsecond⟩ := exists_summand h.2.1
  obtain ⟨es, hothers⟩ := exists_summands h.2.2
  have hentries := List.Forall₂.cons hfirst (.cons hsecond hothers)
  have hsummands : ∀ entry ∈ e₁ :: e₂ :: es, IsSummand entry :=
    forall_mem_of_forall₂ hentries.flip fun _ _ _ hentry => hentry.toIsSummand
  obtain ⟨calls, row, hjoined, htrim, hrun, hiff⟩ := exists_repeatSteps_summands hsummands ()
  have htext := text_foldl (.cons hsecond hothers) e₁
  rw [hjoined, htrim, hfirst.trim] at htext
  have hholds := not_congr (exists_holdsSum_iff hentries)
  push Not at hholds
  rw [text_summands hentries, ← cons_intercalate] at hrun
  have hresult : concatExpression (['+'].intercalate (first :: second :: others)) =
      .ok (text () row) := by
    rw [concatExpression]
    simp only [hrun, ok_bind]
    exact slice_wrap () row
  refine ⟨⟨_, hresult⟩, ?_⟩
  rw [hresult, Except.ok.injEq, nested, ← htext, hiff, hholds]

theorem concatExpression_nested_three :
    (∀ operand ∈ ["'a+b' ".toList, " f(x + y + z; (w))".toList, "\"(\"".toList],
      Operand operand ∧ ¬ HoldsSum (Text.keys operand)) ∧
      concatExpression "'a+b' + f(x + y + z; (w))+\"(\"".toList =
        .ok "concat(concat('a+b', f(x + y + z; (w))), \"(\")".toList := by
  have hoperands : ∀ operand ∈ ["'a+b' ".toList, " f(x + y + z; (w))".toList, "\"(\"".toList],
      Operand operand := by
    refine List.forall_mem_cons.2 ⟨?_, List.forall_mem_cons.2 ⟨?_, List.forall_mem_singleton.2 ?_⟩⟩
    all_goals exact ⟨by decide +kernel, ⟨_, tokenize_of_foldl (by decide +kernel)⟩,
      by decide +kernel⟩
  have hsums : ∀ operand ∈ ["'a+b' ".toList, " f(x + y + z; (w))".toList, "\"(\"".toList],
      ¬ HoldsSum (Text.keys operand) := by
    refine List.forall_mem_cons.2 ⟨?_, List.forall_mem_cons.2 ⟨?_, List.forall_mem_singleton.2 ?_⟩⟩
    all_goals exact fun hsum => absurd hsum.le_count (by decide +kernel)
  exact ⟨fun operand hmem => ⟨hoperands operand hmem, hsums operand hmem⟩,
    (concatExpression_eq_nested_iff hoperands).2.2 hsums⟩

/-- A sum inside of an operand is changed as well. -/
theorem concatExpression_inner :
    Operand "'x' ".toList ∧ Operand " f(a+b+c+d)".toList ∧
      concatExpression "'x' + f(a+b+c+d)".toList =
        .ok "concat('x', f(a+concat(b, c)+d))".toList ∧
      nested "'x' ".toList [" f(a+b+c+d)".toList] = "concat('x', f(a+b+c+d))".toList := by
  refine ⟨?_, ?_, by decide +kernel, by decide +kernel⟩
  all_goals exact ⟨by decide +kernel, ⟨_, tokenize_of_foldl (by decide +kernel)⟩,
    by decide +kernel⟩

end BigQuery.Concat

end SqlScript
