import SqlScript.BigQuery.Clause
import SqlScript.Proofs.CaptureScope
import SqlScript.Proofs.Row

/-!
# Searching in a row

A pattern whose literals are words or symbols in small letters, and whose variables are free, is
simple (`PatternBlock.Simple`). It can be searched for among the cells of a row : a literal takes
one cell (`Row.take?`), and a variable takes the cells up to the first cell equal to the literal
behind it, while no parenthesis is open (`Row.stop?`). A quoted literal of the text is one cell, so
there is no need to keep track of quotes.

`Row.search_tokens` says that a search in the text of a legible row finds what is found among its
cells, at every index. What is found among the cells does not know the index.
-/

namespace SqlScript

open List Option Search Layout.Lexeme Layout.Cell Text BigQuery

/-- The block is a literal in small letters that is no quote mark, or a free variable. -/
def PatternBlock.Simple (block : PatternBlock) : Prop :=
  block.Plain ∧ match block with
    | .literal text => text.toLowerAscii = text
    | .placeholder _ _ => True

instance PatternBlock.decidableSimple : (block : PatternBlock) → Decidable block.Simple
  | .literal text => inferInstanceAs (Decidable (_ ∧ text.toLowerAscii = text))
  | .placeholder name constraint =>
    inferInstanceAs (Decidable ((PatternBlock.placeholder name constraint).Plain ∧ True))

namespace Layout

variable {σ : Type}

/-! ## Tokens of a cell -/

/-- The token of a lexeme that is no literal. -/
def Lexeme.tokenAt (offset : Nat) (lexeme : Lexeme) : Token :=
  ⟨offset, offset + lexeme.text.byteSize, lexeme.text, false⟩

theorem Lexeme.tokens_of_isLiteral_eq_false {lexeme : Lexeme} (h : lexeme.isLiteral = false)
    (offset : Nat) : lexeme.tokens offset = [lexeme.tokenAt offset] := by
  cases lexeme with
  | word w => exact tokens_word offset w
  | symbol s =>
    rw [tokens_symbol, tokenAt, text, byteSize_cons, byteSize_nil, Nat.add_zero]
  | literal l => simp [isLiteral] at h

theorem Lexeme.isQuote_tokenAt {lexeme : Lexeme} (h : lexeme.isLiteral = false) (offset : Nat) :
    (lexeme.tokenAt offset).isQuote = false := by
  cases hquote : (lexeme.tokenAt offset).isQuote with
  | false => rfl
  | true =>
    obtain ⟨mark, htext, hmark⟩ := exists_mark_of_isQuote hquote
    have htext : lexeme.text = [mark] := htext
    cases lexeme with
    | word w =>
      have hword := all_eq_true.1 w.chars mark (by
        have : w.text = [mark] := htext
        simp [this])
      simp [isWordChar_of_isQuoteMark hmark] at hword
    | symbol s =>
      obtain rfl : s.char = mark := by simpa [text] using htext
      simp [s.quote] at hmark
    | literal l => simp [isLiteral] at h

theorem Cell.is_tokenAt {cell : Cell σ} (hcell : cell.lexeme.isLiteral = false) {text : Text}
    (hsmall : text.toLowerAscii = text) (offset : Nat) :
    (cell.lexeme.tokenAt offset).is text = cell.is text := by
  rw [Token.is, eqFolded, tokenAt, hsmall, is, hcell]
  rfl

theorem isQuote_opening (l : Literal) (offset stop : Nat) :
    Token.isQuote ⟨offset, stop, [l.mark], false⟩ := by
  simpa [Token.isQuote, isQuoteMark] using l.quote

theorem is_opening (l : Literal) (offset stop : Nat) {text : Text}
    (hplain : (PatternBlock.literal text).Plain) :
    Token.is ⟨offset, stop, [l.mark], false⟩ text = false := by
  cases his : Token.is ⟨offset, stop, [l.mark], false⟩ text with
  | false => rfl
  | true =>
    have hquote := isQuote_eq_false_of_is hplain his
    simp [isQuote_opening] at hquote

/-- A quoted literal holds no word or symbol of the text outside of quotes. -/
theorem Lexeme.is_of_mem_tokens {lexeme : Lexeme} (h : lexeme.isLiteral) {text : Text}
    (hplain : (PatternBlock.literal text).Plain) {offset : Nat} {token : Token}
    (hmem : token ∈ lexeme.tokens offset) : (token.is text && !token.inQuotes) = false := by
  cases lexeme with
  | word w => simp [isLiteral] at h
  | symbol s => simp [isLiteral] at h
  | literal l =>
    obtain ⟨inside, hinside, htokens⟩ := exists_tokens_literal offset l
    have hflagged := Token.flagged_scanFrom offset none (literal l).text (by simp)
    rw [← tokens, htokens] at hflagged
    obtain ⟨hflags, -⟩ := flagged_quoted (isQuote_opening l _ _) hinside (by rfl) hflagged
    rw [htokens] at hmem
    rcases mem_cons.1 hmem with rfl | hmem
    · rw [is_opening l _ _ hplain, Bool.false_and]
    · simp [hflags token hmem]

/-! ## Where a variable stops -/

/-- How many parentheses are open after the cell. -/
def Cell.depthAfter (depth : Nat) (cell : Cell σ) : Nat :=
  if cell.is ['('] then depth + 1 else if cell.is [')'] then depth - 1 else depth

namespace Row

/-- What a variable takes, the cell at which it stops and the cells after that. -/
structure Stop (σ : Type) where
  segment : Row σ
  boundary : Cell σ
  later : Row σ

/-- The first cell equal to the text where no parenthesis is open. A `;` or a `)` before it is in
the way there. -/
def stop? (text : Text) (depth : Nat) : Row σ → Option (Stop σ)
  | [] => none
  | cell :: row =>
    if depth == 0 && cell.is text then some ⟨[], cell, row⟩
    else if depth == 0 && (cell.is [';'] || cell.is [')']) then none
    else (stop? text (cell.depthAfter depth) row).map fun stop =>
      { stop with segment := cell :: stop.segment }

theorem free_replicate (depth : Nat) : Free (replicate depth '(') := by
  cases depth with
  | zero => exact free_nil
  | succ depth => exact free_paren _

theorem openAfter_tokenAt {cell : Cell σ} (hcell : cell.lexeme.isLiteral = false)
    (depth offset : Nat) :
    openAfter false (replicate depth '(') (cell.lexeme.tokenAt offset) =
      replicate (cell.depthAfter depth) '(' := by
  have hquote := isQuote_tokenAt hcell offset
  have hopens : cell.is ['('] ↔ _ := is_singleton_iff (by decide) (by decide)
  have hcloses : cell.is [')'] ↔ _ := is_singleton_iff (by decide) (by decide)
  rw [depthAfter]
  split
  · rename_i his
    exact openAfter_opening (free_replicate depth) (hopens.1 his).2
  · rename_i hopening
    have hopening : cell.lexeme.text ≠ ['('] := fun htext => hopening (hopens.2 ⟨hcell, htext⟩)
    split
    · rename_i his
      cases depth with
      | zero =>
        have htext : (cell.lexeme.tokenAt offset).text = [')'] := (hcloses.1 his).2
        simp [openAfter, hquote, htext]
      | succ depth => exact openAfter_closing (hcloses.1 his).2
    · rename_i hclosing
      exact openAfter_plain (free_replicate depth) hquote hopening fun htext =>
        hclosing (hcloses.2 ⟨hcell, htext⟩)

theorem boundary?_inside {mark : Char} (hmark : isQuoteMark mark) (text : Text)
    (opened : List Char) {inside : List Token} (h : ∀ token ∈ inside, token.text ≠ [mark])
    (later : List Token) : boundary? false text (mark :: opened) (inside ++ later) =
      boundary? false text (mark :: opened) later := by
  induction inside with
  | nil => rfl
  | cons token inside ih =>
    rw [forall_mem_cons] at h
    rw [cons_append, boundary?, openAfter_inside hmark, if_neg h.1]
    exact ih h.2

/-- A variable passes over a quoted literal. -/
theorem boundary?_literal {lexeme : Lexeme} (h : lexeme.isLiteral) {text : Text}
    (hplain : (PatternBlock.literal text).Plain) (depth offset : Nat) (later : List Token) :
    boundary? false text (replicate depth '(') (lexeme.tokens offset ++ later) =
      boundary? false text (replicate depth '(') later := by
  cases lexeme with
  | word w => simp [isLiteral] at h
  | symbol s => simp [isLiteral] at h
  | literal l =>
    obtain ⟨inside, hinside, htokens⟩ := exists_tokens_literal offset l
    have hmark : l.mark ≠ ';' ∧ l.mark ≠ ')' := by
      constructor <;> rintro heq <;> have hquote := l.quote <;> rw [heq] at hquote <;>
        exact absurd hquote (by decide)
    rw [htokens, cons_append, append_assoc, boundary?, is_opening l _ _ hplain,
      openAfter_quote (free_replicate depth) (isQuote_opening l _ _) rfl]
    simp only [Bool.and_false, Bool.false_eq_true, if_false, cons.injEq, hmark,
      false_and, beq_eq_false_iff_ne.2, ne_eq, not_false_eq_true, Bool.or_self]
    rw [boundary?_inside l.quote text _ hinside, singleton_append, boundary?,
      openAfter_inside l.quote, if_pos rfl]
    rfl

/-- The end of a capture among the tokens is the end among the cells. -/
theorem boundary?_tokens (s : σ) {text : Text} (hsimple : (PatternBlock.literal text).Simple)
    (depth offset : Nat) (row : Row σ) :
    boundary? false text (replicate depth '(') (tokens s offset row) =
      (stop? text depth row).map fun stop =>
        (stop.boundary.lexeme.tokenAt (offset + (Row.text s stop.segment).byteSize),
          tokens s (offset + (Row.text s (stop.segment ++ [stop.boundary])).byteSize)
            stop.later) := by
  induction row generalizing depth offset with
  | nil => rfl
  | cons cell row ih =>
    rw [tokens_cons]
    cases hcell : cell.lexeme.isLiteral with
    | true =>
      have his : ∀ text, cell.is text = false := fun text => by simp [is, hcell]
      have hdepth : cell.depthAfter depth = depth := by simp [depthAfter, his]
      rw [boundary?_literal hcell hsimple.1, ih, stop?, his, his, his, hdepth]
      simp only [Bool.and_false, Bool.or_self, Bool.false_eq_true, if_false, Option.map_map,
        Function.comp_def, cons_append, text_cons, byteSize_append, Nat.add_assoc]
    | false =>
      have hopened : (replicate depth '(').isEmpty = (depth == 0) := by
        cases depth <;> rfl
      have hsemicolon : ((cell.lexeme.tokenAt offset).text == [';']) = cell.is [';'] :=
        Bool.eq_iff_iff.2 (by
          simp [is_singleton_iff (c := ';') (by decide) (by decide), hcell, tokenAt])
      have hparen : ((cell.lexeme.tokenAt offset).text == [')']) = cell.is [')'] :=
        Bool.eq_iff_iff.2 (by
          simp [is_singleton_iff (c := ')') (by decide) (by decide), hcell, tokenAt])
      rw [tokens_of_isLiteral_eq_false hcell, singleton_append, boundary?, stop?,
        is_tokenAt hcell hsimple.2, hopened, hsemicolon, hparen, openAfter_tokenAt hcell, ih]
      simp only [Bool.not_false, Bool.and_true]
      split
      · simp
      · split
        · rfl
        · simp only [Option.map_map, Function.comp_def, cons_append, text_cons,
            byteSize_append, Nat.add_assoc]

/-! ## Matching a pattern -/

/-- What the blocks of a pattern take : their cells, the captures among them, and the cells
after. -/
structure Taken (σ : Type) where
  cells : Row σ
  captures : List (Text × Row σ)
  later : Row σ

/-- What the blocks take at the start of a row, a variable up to the literal after it. -/
def take? : List PatternBlock → Row σ → Option (Taken σ)
  | [], row => some ⟨[], [], row⟩
  | .literal text :: blocks, cell :: row =>
    if cell.is text then
      (take? blocks row).map fun taken => { taken with cells := cell :: taken.cells }
    else none
  | .placeholder name _ :: .literal text :: blocks, row =>
    (stop? text 0 row).bind fun stop => (take? blocks stop.later).map fun taken =>
      ⟨stop.segment ++ stop.boundary :: taken.cells, (name, stop.segment) :: taken.captures,
        taken.later⟩
  | _, _ => none

/-- The text of a row up to the end of its last lexeme. -/
def body (s : σ) : Row σ → Text
  | [] => []
  | [cell] => cell.lexeme.text
  | cell :: next :: row => cell.lexeme.text ++ (cell.gap s ++ body s (next :: row))

theorem body_cons (s : σ) (cell : Cell σ) {row : Row σ} (h : row ≠ []) :
    body s (cell :: row) = cell.lexeme.text ++ (cell.gap s ++ body s row) := by
  obtain ⟨next, row, rfl⟩ := exists_cons_of_ne_nil h
  rfl

theorem body_concat (s : σ) (row : Row σ) (cell : Cell σ) :
    body s (row ++ [cell]) = text s row ++ cell.lexeme.text := by
  induction row with
  | nil => rfl
  | cons first row ih =>
    rw [cons_append, body_cons s first (by simp), ih]
    simp

theorem body_append_cons (s : σ) (a : Row σ) (cell : Cell σ) (row : Row σ) :
    body s (a ++ cell :: row) = text s a ++ body s (cell :: row) := by
  induction a with
  | nil => rfl
  | cons first a ih =>
    rw [cons_append, body_cons s first (by simp), ih]
    simp

/-- The values of captures at an index, put into the bindings. -/
def bind (s : σ) (bindings : Parameters) (captures : List (Text × Row σ)) : Parameters :=
  captures.foldl (fun bindings entry => bindings.insert entry.1 (text s entry.2)) bindings

/-- The offset where an attempt stops that took the cells behind the front. -/
def stopAfter (s : σ) (front : Text) (stop : Nat) (cells : Row σ) : Nat :=
  if cells.isEmpty then stop else (front ++ body s cells).byteSize

/-- The attempt after what was taken, when it stood behind the front. -/
def Taken.attempt (s : σ) (front : Text) (attempt : Attempt) (taken : Taken σ) :
    Attempt where
  stop := stopAfter s front attempt.stop taken.cells
  captureStart := (front ++ text s taken.cells).byteSize
  inPatternQuote := false
  bindings := bind s attempt.bindings taken.captures

theorem startOf_tokens (s : σ) (front : Text) (row : Row σ) :
    startOf (front ++ text s row) (tokens s front.byteSize row) = front.byteSize := by
  cases row with
  | nil => rw [text_nil, append_nil]; rfl
  | cons cell row =>
    have hhead := cell.lexeme.head?_tokens front.byteSize
    obtain ⟨token, later, htokens⟩ :=
      exists_cons_of_ne_nil (cell.lexeme.tokens_ne_nil front.byteSize)
    rw [tokens_cons, htokens]
    rw [htokens] at hhead
    exact some.inj hhead

theorem stopAfter_append_cons (s : σ) (front : Text) (stop : Nat) (segment : Row σ) (cell : Cell σ)
    (cells : Row σ) : stopAfter s (front ++ text s (segment ++ [cell]))
        ((front ++ text s segment).byteSize + cell.lexeme.text.byteSize) cells =
      stopAfter s front stop (segment ++ cell :: cells) := by
  have hne : (segment ++ cell :: cells).isEmpty = false := by simp
  rw [stopAfter, stopAfter, hne, body_append_cons]
  cases cells with
  | nil => simp [body, Nat.add_assoc]
  | cons next cells => simp [body]

/-- Whether every parenthesis is closed when so many are open before the row, and no `;` and no `)`
stands where none is open. -/
def closes (depth : Nat) : Row σ → Bool
  | [] => depth == 0
  | cell :: row =>
    !(depth == 0 && (cell.is [';'] || cell.is [')'])) && closes (cell.depthAfter depth) row

/-- Every parenthesis of the row is closed in it, and no `;` stands outside of parentheses. -/
def Closed (row : Row σ) : Prop :=
  closes 0 row = true

/-- What a variable takes is closed, and with the cell at which it stops it makes up the row. -/
theorem eq_of_stop? {text : Text} {depth : Nat} {row : Row σ} {stop : Stop σ}
    (h : stop? text depth row = some stop) :
    row = stop.segment ++ stop.boundary :: stop.later ∧ stop.boundary.is text ∧
      closes depth stop.segment := by
  induction row generalizing depth stop with
  | nil => simp [stop?] at h
  | cons cell row ih =>
    simp only [stop?] at h
    split at h
    · rename_i his
      cases h
      obtain ⟨hdepth, his⟩ := Bool.and_eq_true_iff.1 his
      exact ⟨rfl, his, hdepth⟩
    · split at h
      · simp at h
      · rename_i hfree
        obtain ⟨stop', hstop', rfl⟩ := map_eq_some_iff.1 h
        obtain ⟨rfl, his, hcloses⟩ := ih hstop'
        refine ⟨rfl, his, ?_⟩
        rw [closes, hcloses, Bool.and_true, Bool.not_eq_true']
        simpa using hfree

theorem bind_cons (s : σ) (bindings : Parameters) (name : Text) (row : Row σ)
    (captures : List (Text × Row σ)) :
    bind s bindings ((name, row) :: captures) =
      bind s (bindings.insert name (text s row)) captures :=
  rfl

/-- An attempt to match among the tokens of a row takes what the blocks take among its cells. -/
theorem matchBlocks_tokens (s : σ) :
    ∀ {blocks : List PatternBlock} {attempt : Attempt} {front : Text} {row : Row σ},
      (∀ block ∈ blocks, block.Simple) → attempt.captureStart = front.byteSize →
      attempt.inPatternQuote = false →
      matchBlocks (front ++ text s row) blocks attempt (tokens s front.byteSize row) =
        .ok ((take? blocks row).map (Taken.attempt s front attempt))
  | [], attempt, front, row, _, hstart, hquote => by
    simp [matchBlocks, take?, Taken.attempt, stopAfter, bind, ← hstart, ← hquote]
  | .literal text :: blocks, attempt, front, [], _, _, _ => rfl
  | .literal text :: blocks, attempt, front, cell :: row, hsimple, hstart, hquote => by
    rw [forall_mem_cons] at hsimple
    cases hcell : cell.lexeme.isLiteral with
    | true =>
      cases hlexeme : cell.lexeme with
      | word w => simp [hlexeme, isLiteral] at hcell
      | symbol c => simp [hlexeme, isLiteral] at hcell
      | literal l =>
        obtain ⟨inside, -, htokens⟩ := exists_tokens_literal front.byteSize l
        rw [tokens_cons, hlexeme, htokens]
        simp [matchBlocks, is_opening l _ _ hsimple.1.1, take?, is, hcell]
    | false =>
      rw [tokens_cons, tokens_of_isLiteral_eq_false hcell, singleton_append,
        matchBlocks, is_tokenAt hcell hsimple.1.2, take?]
      split
      · have hsql : front ++ Row.text s (cell :: row) =
            front ++ Row.text s ([] ++ [cell]) ++ Row.text s row := by simp
        have hoffset : front.byteSize + (cell.lexeme.text ++ cell.gap s).byteSize =
            (front ++ Row.text s ([] ++ [cell])).byteSize := by simp
        rw [hoffset, hsql, matchBlocks_tokens s hsimple.2]
        · congr 1
          rw [Option.map_map]
          congr 1
          funext taken
          have hstop := stopAfter_append_cons s front attempt.stop [] cell taken.cells
          simp only [nil_append, text_cons, text_nil, append_nil] at hstop
          simp [Taken.attempt, Attempt.afterLiteral, tokenAt, hstop]
        · exact startOf_tokens s _ row
        · simp [Attempt.afterLiteral, hquote, isQuote_tokenAt hcell]
      · rfl
  | .placeholder name constraint :: .literal text :: blocks, attempt, front, row, hsimple, hstart,
      hquote => by
    simp only [forall_mem_cons] at hsimple
    obtain ⟨⟨rfl, -⟩, htext, hsimple⟩ := hsimple
    have hboundary := boundary?_tokens s htext 0 front.byteSize row
    rw [replicate_zero, ← hquote] at hboundary
    cases hstop : stop? text 0 row with
    | none =>
      rw [hstop] at hboundary
      simp [matchBlocks, hboundary, take?, hstop]
    | some stop =>
      rw [hstop, map_some] at hboundary
      obtain ⟨rfl, his, -⟩ := eq_of_stop? hstop
      have hcell := (is_iff.1 his).1
      have hsql : front ++ Row.text s (stop.segment ++ stop.boundary :: stop.later) =
          front ++ (Row.text s stop.segment ++ Row.text s (stop.boundary :: stop.later)) := by
        rw [text_append]
      have hslice : slice (front ++ Row.text s (stop.segment ++ stop.boundary :: stop.later))
          (min attempt.captureStart (front.byteSize + (Row.text s stop.segment).byteSize))
          (front.byteSize + (Row.text s stop.segment).byteSize) =
          .ok (Row.text s stop.segment) := by
        rw [hsql, hstart, Nat.min_eq_left (Nat.le_add_right _ _)]
        exact slice_append rfl rfl
      have hwhole : front ++ Row.text s (stop.segment ++ stop.boundary :: stop.later) =
          front ++ Row.text s (stop.segment ++ [stop.boundary]) ++ Row.text s stop.later := by
        simp
      rw [matchBlocks_capture hboundary hslice, hwhole,
        ← byteSize_append front (Row.text s (stop.segment ++ [stop.boundary])),
        matchBlocks_tokens s hsimple, take?, hstop, bind_some]
      · rw [Option.map_map]
        congr 2
        funext taken
        have hstop := stopAfter_append_cons s front attempt.stop stop.segment stop.boundary
          taken.cells
        rw [byteSize_append, text_append, text_cons, text_nil, append_nil] at hstop
        simp [Taken.attempt, Attempt.afterLiteral, tokenAt, hstop, bind_cons]
      · exact startOf_tokens s _ stop.later
      · simp [Attempt.afterLiteral, hquote, isQuote_tokenAt hcell]
  | [.placeholder name constraint], attempt, front, row, hsimple, _, _ => by
    obtain ⟨rfl, -⟩ := hsimple _ mem_cons_self
    rfl
  | .placeholder name constraint :: .placeholder _ _ :: blocks, attempt, front, row, hsimple, _,
      _ => by
    obtain ⟨rfl, -⟩ := hsimple _ mem_cons_self
    rfl

/-! ## The first match -/

/-- A match, and the cells before it. -/
structure Found (σ : Type) where
  front : Row σ
  taken : Taken σ

/-- The first cell at which the blocks take cells, and what they take. -/
def locate? (blocks : List PatternBlock) : Row σ → Option (Found σ)
  | [] => none
  | cell :: row =>
    match take? blocks (cell :: row) with
    | some taken => some ⟨[], taken⟩
    | none => (locate? blocks row).map fun found => { found with front := cell :: found.front }

/-- The match as a search reports it, in a row that stands behind the front and whose first token
has the index. -/
def Found.report (s : σ) (front : Text) (index : Nat) (found : Found σ) : PatternMatch where
  start := (front ++ text s found.front).byteSize
  stop := (front ++ text s found.front ++ body s found.taken.cells).byteSize
  startToken := index + (keys found.front).length
  bindings := bind s [] found.taken.captures

/-- Tokens at which the first literal does not match are passed over. -/
theorem firstFrom_append (sql : Text) (text : Text) (blocks : List PatternBlock) {run : List Token}
    (h : ∀ token ∈ run, (token.is text && !token.inQuotes) = false) (index : Nat)
    (later : List Token) :
    firstFrom sql (.literal text :: blocks) index (run ++ later) =
      firstFrom sql (.literal text :: blocks) (index + run.length) later := by
  induction run generalizing index with
  | nil => rfl
  | cons token run ih =>
    rw [forall_mem_cons] at h
    rw [cons_append, firstFrom, matchAt, h.1, if_neg Bool.false_ne_true, ok_bind,
      ih h.2, length_cons, Nat.add_assoc, Nat.add_comm 1]

theorem take?_of_isLiteral {cell : Cell σ} (h : cell.lexeme.isLiteral) (text : Text)
    (blocks : List PatternBlock) (row : Row σ) :
    take? (.literal text :: blocks) (cell :: row) = none := by
  simp [take?, is, h]

variable {blocks : List PatternBlock}

theorem cells_ne_nil_of_take? {text : Text} {row : Row σ} {taken : Taken σ}
    (h : take? (.literal text :: blocks) row = some taken) : taken.cells ≠ [] := by
  cases row with
  | nil => simp [take?] at h
  | cons cell row =>
    simp only [take?] at h
    split at h
    · obtain ⟨taken', -, rfl⟩ := map_eq_some_iff.1 h
      simp
    · simp at h

theorem firstFrom_tokens (s : σ) {text : Text}
    (hsimple : ∀ block ∈ PatternBlock.literal text :: blocks, block.Simple) (front : Text)
    (index : Nat) (row : Row σ) :
    firstFrom (front ++ Row.text s row) (.literal text :: blocks) index
        (tokens s front.byteSize row) =
      .ok ((locate? (.literal text :: blocks) row).map (Found.report s front index)) := by
  induction row generalizing front index with
  | nil => rfl
  | cons cell row ih =>
    have hsql : front ++ Row.text s (cell :: row) =
        front ++ (cell.lexeme.text ++ cell.gap s) ++ Row.text s row := by simp
    -- where nothing is taken at the cell, the search goes on behind its tokens
    have hnext : take? (.literal text :: blocks) (cell :: row) = none →
        firstFrom (front ++ Row.text s (cell :: row)) (.literal text :: blocks)
          (index + cell.lexeme.keys.length)
          (tokens s (front.byteSize + (cell.lexeme.text ++ cell.gap s).byteSize) row) =
        .ok ((locate? (.literal text :: blocks) (cell :: row)).map
          (Found.report s front index)) := by
      intro hnone
      rw [hsql, ← byteSize_append, ih, locate?, hnone, Option.map_map]
      congr 2
      funext found
      simp [Found.report, Nat.add_assoc]
    have hlength : cell.lexeme.keys.length = (cell.lexeme.tokens front.byteSize).length := by
      rw [← Lexeme.map_key_tokens front.byteSize, length_map]
    rw [tokens_cons]
    cases hcell : cell.lexeme.isLiteral with
    | true =>
      rw [firstFrom_append _ _ _ (fun token hmem =>
        Lexeme.is_of_mem_tokens hcell (hsimple _ mem_cons_self).1 hmem), ← hlength]
      exact hnext (take?_of_isLiteral hcell text blocks row)
    | false =>
      have htokens := Lexeme.tokens_of_isLiteral_eq_false hcell front.byteSize
      have hrun : cell.lexeme.tokenAt front.byteSize ::
          tokens s (front.byteSize + (cell.lexeme.text ++ cell.gap s).byteSize) row =
            tokens s front.byteSize (cell :: row) := by
        rw [tokens_cons, htokens]
        rfl
      rw [htokens, singleton_append, firstFrom,
        matchAt_of_outside text blocks rfl, hrun, matchBlocks_tokens s hsimple rfl rfl,
        ok_bind]
      cases htake : take? (.literal text :: blocks) (cell :: row) with
      | none =>
        rw [htokens] at hlength
        rw [hlength] at hnext
        exact hnext htake
      | some taken =>
        have hne : taken.cells.isEmpty = false := by
          simpa using cells_ne_nil_of_take? htake
        simp [locate?, htake, Found.report, Taken.attempt, stopAfter, hne, Lexeme.tokenAt,
          attemptAt]
        rfl

/-- A search in the text of a row finds what is found among its cells. -/
theorem search_tokens (s : σ) {pattern : Pattern} {text : Text}
    (hblocks : pattern.blocks = .literal text :: blocks)
    (hsimple : ∀ block ∈ pattern.blocks, block.Simple) (front : Text) (before row : Row σ) :
    search (front ++ Row.text s (before ++ row)) (tokens s front.byteSize (before ++ row)) pattern
        (keys before).length =
      .ok ((locate? pattern.blocks row).map
        (Found.report s (front ++ Row.text s before) (keys before).length)) := by
  rw [search, tokens_append, drop_append_of_le_length (by rw [length_tokens]),
    drop_of_length_le (by rw [length_tokens]), nil_append, text_append,
    ← append_assoc, ← byteSize_append]
  rw [hblocks] at hsimple ⊢
  exact firstFrom_tokens s hsimple _ _ row

theorem findClause_text (s : σ) {pattern : Pattern} {text : Text}
    (hblocks : pattern.blocks = .literal text :: blocks)
    (hsimple : ∀ block ∈ pattern.blocks, block.Simple) {lead : Text} (hlead : Heading lead)
    {before row : Row σ} (hlegible : Legible (before ++ row)) :
    findClause (lead ++ Row.text s (before ++ row)) pattern (keys before).length =
      .ok ((locate? pattern.blocks row).map
        (Found.report s (lead ++ Row.text s before) (keys before).length)) := by
  rw [findClause, tokens_text hlegible s hlead]
  exact search_tokens s hblocks hsimple lead before row

/-! ## What is found -/

/-- The row of a variable. -/
def Taken.get (taken : Taken σ) (name : Text) : Row σ :=
  (taken.captures.reverse.lookup name).getD []

theorem get?_bind (s : σ) (bindings : Parameters) (captures : List (Text × Row σ)) (name : Text) :
    (bind s bindings captures).get? name =
      ((captures.reverse.lookup name).map (text s)).or (bindings.get? name) := by
  induction captures generalizing bindings with
  | nil => rfl
  | cons entry captures ih =>
    obtain ⟨key, row⟩ := entry
    rw [bind_cons, ih, Parameters.get?_insert, reverse_cons, lookup_append]
    cases captures.reverse.lookup name with
    | some value => rfl
    | none =>
      by_cases hname : name = key
      · simp [hname]
      · simp [hname, lookup_cons, beq_false_of_ne hname]

theorem get?_report (s : σ) (front : Text) (index : Nat) (found : Found σ) (name : Text) :
    ((found.report s front index).bindings.get? name).getD [] = text s (found.taken.get name) := by
  rw [Found.report, get?_bind, Taken.get]
  cases found.taken.captures.reverse.lookup name <;> rfl

/-- A variable takes a row, and the blanks at its end are trimmed. -/
theorem capture_report (s : σ) (front : Text) (index : Nat) (found : Found σ) (name : String) :
    capture (found.report s front index) name = text s (trimEnd (found.taken.get name.toList)) := by
  rw [capture, get?_report, text_trim]

/-- The blocks take the cells, each literal one cell and each variable a closed row. -/
def Takes : List PatternBlock → Row σ → List (Text × Row σ) → Prop
  | [], cells, captures => cells = [] ∧ captures = []
  | .literal text :: blocks, cells, captures =>
    ∃ cell rest, cells = cell :: rest ∧ cell.is text = true ∧ Takes blocks rest captures
  | .placeholder name _ :: .literal text :: blocks, cells, captures =>
    ∃ segment cell rest later, cells = segment ++ cell :: rest ∧
      captures = (name, segment) :: later ∧ Closed segment ∧ cell.is text = true ∧
      Takes blocks rest later
  | _, _, _ => False

theorem takes_of_take? : ∀ {blocks : List PatternBlock} {row : Row σ} {taken : Taken σ},
    take? blocks row = some taken →
      Takes blocks taken.cells taken.captures ∧ row = taken.cells ++ taken.later
  | [], row, taken, h => by
    cases h
    exact ⟨⟨rfl, rfl⟩, rfl⟩
  | .literal text :: blocks, cell :: row, taken, h => by
    simp only [take?] at h
    split at h
    · rename_i his
      obtain ⟨taken', htaken', rfl⟩ := map_eq_some_iff.1 h
      obtain ⟨htakes, rfl⟩ := takes_of_take? htaken'
      exact ⟨⟨cell, taken'.cells, rfl, his, htakes⟩, rfl⟩
    · simp at h
  | .placeholder name constraint :: .literal text :: blocks, row, taken, h => by
    simp only [take?, bind_eq_some_iff] at h
    obtain ⟨stop, hstop, h⟩ := h
    obtain ⟨taken', htaken', rfl⟩ := map_eq_some_iff.1 h
    obtain ⟨htakes, hlater⟩ := takes_of_take? htaken'
    obtain ⟨rfl, his, hcloses⟩ := eq_of_stop? hstop
    refine ⟨⟨stop.segment, stop.boundary, taken'.cells, taken'.captures, rfl, rfl,
      hcloses, his, htakes⟩, ?_⟩
    simp [hlater]
  | .literal text :: blocks, [], taken, h => by simp [take?] at h
  | [.placeholder name constraint], row, taken, h => by simp [take?] at h
  | .placeholder name constraint :: .placeholder _ _ :: blocks, row, taken, h => by
    simp [take?] at h

theorem locate?_of_take? {row : Row σ} {taken : Taken σ} (h : take? blocks row = some taken)
    (hne : row ≠ []) : locate? blocks row = some ⟨[], taken⟩ := by
  obtain ⟨cell, rest, rfl⟩ := exists_cons_of_ne_nil hne
  rw [locate?, h]

/-- A match and the cells around it make up the row. -/
theorem eq_of_locate? {row : Row σ} {found : Found σ} (h : locate? blocks row = some found) :
    row = found.front ++ (found.taken.cells ++ found.taken.later) ∧
      Takes blocks found.taken.cells found.taken.captures := by
  induction row generalizing found with
  | nil => simp [locate?] at h
  | cons cell row ih =>
    simp only [locate?] at h
    split at h
    · rename_i taken htake
      cases h
      obtain ⟨htakes, hrow⟩ := takes_of_take? htake
      exact ⟨hrow, htakes⟩
    · obtain ⟨found', hfound', rfl⟩ := map_eq_some_iff.1 h
      obtain ⟨rfl, htakes⟩ := ih hfound'
      exact ⟨rfl, htakes⟩

/-- What a variable takes is a stretch of the cells. -/
theorem Takes.capture : ∀ {blocks : List PatternBlock} {cells : Row σ}
    {captures : List (Text × Row σ)}, Takes blocks cells captures → ∀ entry ∈ captures,
      entry.2 <:+: cells ∧ Closed entry.2
  | [], cells, captures, h, entry, hmem => by
    rw [h.2] at hmem
    simp at hmem
  | .literal text :: blocks, cells, captures, h, entry, hmem => by
    obtain ⟨cell, rest, rfl, -, h⟩ := h
    obtain ⟨hrest, hclosed⟩ := h.capture entry hmem
    exact ⟨hrest.trans (suffix_cons cell rest).isInfix, hclosed⟩
  | .placeholder name constraint :: .literal text :: blocks, cells, captures, h, entry, hmem => by
    obtain ⟨segment, cell, rest, later, rfl, rfl, hsegment, -, h⟩ := h
    rcases mem_cons.1 hmem with rfl | hmem
    · exact ⟨(prefix_append segment _).isInfix, hsegment⟩
    · obtain ⟨hrest, hclosed⟩ := h.capture entry hmem
      refine ⟨hrest.trans ?_, hclosed⟩
      exact ((suffix_cons cell rest).trans (suffix_append segment _)).isInfix
  | [.placeholder _ _], _, _, h, _, _ => h.elim
  | .placeholder _ _ :: .placeholder _ _ :: _, _, _, h, _, _ => h.elim

/-- What a variable of a match takes is a closed stretch of the row. -/
theorem get_of_locate? {row : Row σ} {found : Found σ} (h : locate? blocks row = some found)
    (name : Text) : found.taken.get name <:+: row ∧ Closed (found.taken.get name) := by
  obtain ⟨hrow, htakes⟩ := eq_of_locate? h
  rw [Taken.get]
  cases hlookup : found.taken.captures.reverse.lookup name with
  | none => exact ⟨ nil_infix, rfl⟩
  | some value =>
    obtain ⟨before, after, hmem, -⟩ := lookup_eq_some_iff.1 hlookup
    have hentry : (name, value) ∈ found.taken.captures := by
      rw [← mem_reverse, hmem]
      simp
    obtain ⟨hcells, hclosed⟩ := htakes.capture _ hentry
    refine ⟨hcells.trans ?_, hclosed⟩
    rw [hrow]
    exact infix_append' _ _ _

theorem closes_mapLast {f : Cell σ → Cell σ} (hf : ∀ cell, (f cell).lexeme = cell.lexeme)
    (depth : Nat) (row : Row σ) : closes depth (mapLast f row) = closes depth row := by
  have his : ∀ cell text, (f cell).is text = cell.is text := fun cell text => by
    rw [is, is, hf]
  induction row generalizing depth with
  | nil => rfl
  | cons cell row ih =>
    cases row with
    | nil => simp only [mapLast, closes, depthAfter, his]
    | cons next row => rw [mapLast, closes, closes, ih]

theorem Closed.trimEnd {row : Row σ} (h : Closed row) : Closed (trimEnd row) :=
  (closes_mapLast (f := Cell.trimEnd) (fun _ => rfl) 0 row).trans h

theorem Legible.trimEnd {row : Row σ} (h : Legible row) : Legible (trimEnd row) :=
  h.mapLast (f := Cell.trimEnd) fun _ => rfl

end Row

end Layout

end SqlScript
