import SqlScript.Proofs.Division
import SqlScript.Proofs.Layout

/-!
# Scripts made of blocks

A script is a list of commands, each of which is a sequence of items and a `;`. An item is a lexeme
that opens and closes nothing, a literal, a bracketed identifier, `END IF`, or a block with a
sequence of its own between its keywords; in a `BEGIN … END` a `;` is an item too. The type of
sequences (`Layout.Items`) knows where a sequence stands, so that a `;` stands in `BEGIN … END`
only, and whether an `END` comes before it, so that no `IF` follows the `END` of a block.

Reading a sequence leaves the open blocks as they were, and ends no statement on the way
(`Layout.Items.passes`). So a printed script falls into its commands (`Layout.Command.divided`) and
is split into their texts (`Layout.Script.split_print`).
-/

namespace SqlScript

open List Layout.Lexeme Text Statement

variable {kind : Block} {w : Word}

open Nesting (Passes)

namespace Layout

/-! ## Items -/

/-- A word that is the keyword, in any case. -/
structure Keyword (keyword : Text) where
  word : Word
  folded : word.text.eqFolded keyword = true

/-- A word that opens and closes no block. -/
structure PlainWord where
  word : Word
  compound : word.text.eqFolded "begin".toList = false
  choice : word.text.eqFolded "case".toList = false
  close : word.text.eqFolded "end".toList = false

/-- A symbol that ends no statement and opens no bracketed identifier. -/
structure PlainSymbol where
  symbol : Symbol
  terminator : symbol.char ≠ ';'
  bracket : symbol.char ≠ '['

/-- An item that is no block. -/
inductive Leaf where
  | word (w : Written PlainWord)
  | symbol (s : Written PlainSymbol)
  | literal (l : Written Literal)
  /-- A bracketed identifier. -/
  | bracketed (opening : Written Unit) (w : Written Word) (closing : Written Unit)
  /-- The end of a conditional, which closes no block. -/
  | endIf (close : Written (Keyword "end".toList)) (kind : Written (Keyword "if".toList))

/-- Whether the item is the word `IF`. -/
def Leaf.isIf : Leaf → Bool
  | word w => w.token.word.text.eqFolded "if".toList
  | _ => false

/-- The keyword that opens a block. -/
def opening : Block → Text
  | .compound => "begin".toList
  | .choice => "case".toList

/-- A sequence of items that stands in the block `within`, if in any, and right after the `END` of a
block if `afterEnd`. -/
inductive Items : Option Block → Bool → Type where
  | nil {within : Option Block} {afterEnd : Bool} : Items within afterEnd
  | leaf {within : Option Block} {afterEnd : Bool} (item : Leaf)
    (apart : afterEnd = true → item.isIf = false) (rest : Items within false) :
    Items within afterEnd
  | block {within : Option Block} {afterEnd : Bool} (kind : Block)
    (begins : Written (Keyword (opening kind))) (body : Items (some kind) false)
    (ends : Written (Keyword "end".toList)) (rest : Items within true) : Items within afterEnd
  | terminator {afterEnd : Bool} (mark : Written Unit) (rest : Items (some .compound) false) :
    Items (some .compound) afterEnd

/-- The symbol that ends a statement. -/
def semicolon : Symbol :=
  ⟨';', by decide, by decide, by decide⟩

/-- The symbol before a bracketed identifier. -/
def openBracket : Symbol :=
  ⟨'[', by decide, by decide, by decide⟩

/-- The symbol behind a bracketed identifier. -/
def closeBracket : Symbol :=
  ⟨']', by decide, by decide, by decide⟩

/-- The lexemes of a leaf. -/
def Leaf.written : Leaf → List (Written Lexeme)
  | word w => [w.map fun w => .word w.word]
  | symbol s => [s.map fun s => .symbol s.symbol]
  | literal l => [l.map .literal]
  | bracketed opening w closing =>
    [opening.map fun _ => .symbol openBracket, w.map .word,
      closing.map fun _ => .symbol closeBracket]
  | endIf close kind => [close.map fun w => .word w.word, kind.map fun w => .word w.word]

/-- The lexemes of the items, those of a block between its two keywords. -/
def Items.written {within : Option Block} {afterEnd : Bool} :
    Items within afterEnd → List (Written Lexeme)
  | nil => []
  | leaf item _ rest => item.written ++ rest.written
  | block _ begins body ends rest =>
    (begins.map fun w => .word w.word) ::
      (body.written ++ (ends.map fun w => .word w.word) :: rest.written)
  | terminator mark rest => (mark.map fun _ => .symbol semicolon) :: rest.written

/-! ## What one token does -/

section

variable {nesting : Nesting} {token : Token} {next : Option Token}

theorem Word.text_ne_singleton (w : Word) {c : Char} (h : isWordChar c = false) : w.text ≠ [c] := by
  intro htext
  have hword := w.chars
  rw [htext] at hword
  simp [h] at hword

theorem eqFolded_eq_false {text keyword other : Text} (h : text.eqFolded keyword)
    (hne : keyword.eqFolded other = false) : text.eqFolded other = false := by
  unfold eqFolded at *
  rwa [beq_iff_eq.1 h]

theorem isQuote_of_word (htext : token.text = w.text) : token.isQuote = false := by
  simp only [Token.isQuote, htext, Bool.or_eq_false_iff, beq_eq_false_iff_ne]
  exact ⟨w.text_ne_singleton (by decide), w.text_ne_singleton (by decide)⟩

theorem beq_bracket_of_word (htext : token.text = w.text) : (token.text == ['[']) = false := by
  rw [htext, beq_eq_false_iff_ne]
  exact w.text_ne_singleton (by decide)

/-- A word that opens and closes no block changes nothing. -/
theorem inert_word (htext : token.text = w.text)
    (hcompound : token.is "begin".toList = false) (hchoice : token.is "case".toList = false)
    (hclose : token.is "end".toList → next.any (·.is "if".toList)) : Nesting.Inert token next :=
  ⟨isQuote_of_word htext, beq_eq_false_iff_ne.1 (beq_bracket_of_word htext), hcompound, hchoice,
    hclose⟩

theorem isEnd_eq_false (h : token.text ≠ [';']) : nesting.isEnd token = false := by
  rw [Bool.eq_false_iff]
  exact fun hend => h (Nesting.isEnd_iff.1 hend).2

/-- A token that changes nothing and is no `;` is passed over. -/
theorem passes_inert (hplain : nesting.Plain) (hinert : Nesting.Inert token next)
    (htext : token.text ≠ [';']) : Passes nesting [token] next nesting := by
  refine .cons (isEnd_eq_false htext) ?_
  rw [head?_nil, Option.none_or, Nesting.after_inert hplain hinert]
  exact .nil

theorem passes_word (hplain : nesting.Plain) (htext : token.text = w.text)
    (hcompound : token.is "begin".toList = false) (hchoice : token.is "case".toList = false)
    (hclose : token.is "end".toList → next.any (·.is "if".toList)) :
    Passes nesting [token] next nesting := by
  refine passes_inert hplain (inert_word htext hcompound hchoice hclose) ?_
  rw [htext]
  exact w.text_ne_singleton (by decide)

/-- Inside a literal all tokens but its mark are passed over. -/
theorem passes_inside {mark : Text} (hplain : nesting.Plain) {inside : List Token}
    (h : ∀ token ∈ inside, token.text ≠ mark) :
    Passes { nesting with quote := some mark } inside next { nesting with quote := some mark } := by
  induction inside with
  | nil => exact .nil
  | cons token inside ih =>
    have hafter : ∀ next, Nesting.after { nesting with quote := some mark } token next =
        { nesting with quote := some mark } := by
      intro next
      simp [Nesting.after, hplain.inBracket, h token mem_cons_self]
    refine .cons (by simp [Nesting.isEnd]) ?_
    rw [hafter]
    exact ih fun token hmem => h token (mem_cons_of_mem _ hmem)

theorem passes_literal (offset : Nat) (hplain : nesting.Plain) (l : Literal) :
    Passes nesting ((Lexeme.literal l).tokens offset) next nesting := by
  obtain ⟨inside, hinside, htokens⟩ := exists_tokens_literal offset l
  have hmark : ∀ c, isQuoteMark c = false → [l.mark] ≠ [c] := by
    rintro c hc heq
    rw [← singleton_inj.1 heq, l.quote] at hc
    cases hc
  rw [htokens]
  refine .cons (isEnd_eq_false (hmark ';' (by decide))) ?_
  have hopen : ∀ next, nesting.after
      ⟨offset, offset + l.mark.utf8Size, [l.mark], false⟩ next =
        { nesting with quote := some [l.mark] } := by
    intro next
    have hquote := l.quote
    simp only [isQuoteMark, Bool.or_eq_true, beq_iff_eq] at hquote
    simp [Nesting.after, hplain.inBracket, hplain.quote, Token.isQuote, hquote]
  rw [hopen]
  refine (passes_inside hplain hinside).append (.cons (by simp [Nesting.isEnd]) ?_)
  have hclose : ∀ token next, token.text = [l.mark] →
      Nesting.after { nesting with quote := some [l.mark] } token next = nesting := by
    intro token next htext
    rw [hplain.eq]
    simp [Nesting.after, htext]
  rw [hclose _ _ rfl]
  exact .nil

/-- A bracketed identifier is passed over, whatever word it is. -/
theorem passes_bracketed {bracket word bracket' : Token} (hplain : nesting.Plain)
    (hbracket : bracket.text = ['[']) (hword : word.text ≠ [']'])
    (hbracket' : bracket'.text = [']']) :
    Passes nesting [bracket, word, bracket'] next nesting := by
  have hopen : ∀ next, nesting.after bracket next = { nesting with inBracket := true } := by
    intro next
    simp [Nesting.after, hplain.inBracket, hplain.quote, Token.isQuote, hbracket]
  have hstay : ∀ next, Nesting.after { nesting with inBracket := true } word next =
      { nesting with inBracket := true } := by
    intro next
    simp [Nesting.after, hword]
  have hclose : ∀ next, Nesting.after { nesting with inBracket := true } bracket' next =
      nesting := by
    intro next
    rw [hplain.eq]
    simp [Nesting.after, hbracket']
  refine .cons (isEnd_eq_false (by simp [hbracket])) ?_
  rw [hopen]
  refine .cons (by simp [Nesting.isEnd]) ?_
  rw [hstay]
  refine .cons (by simp [Nesting.isEnd]) ?_
  rw [hclose]
  exact .nil

/-- The keyword of a block opens it. -/
theorem after_opening (hplain : nesting.Plain) (k : Keyword (opening kind))
    (htext : token.text = k.word.text) :
    nesting.after token next = { nesting with blocks := kind :: nesting.blocks } := by
  have hkeyword : token.is (opening kind) := by
    rw [Token.is, htext]
    exact k.folded
  unfold Nesting.after
  rw [if_neg (by simp [hplain.inBracket]), hplain.quote]
  simp only [isQuote_of_word htext, beq_bracket_of_word htext, Bool.false_eq_true, if_false]
  cases kind with
  | compound => exact if_pos hkeyword
  | choice =>
    have hcompound : token.is "begin".toList = false := eqFolded_eq_false hkeyword (by decide)
    simp only [hcompound, Bool.false_eq_true, if_false]
    exact if_pos hkeyword

/-- An `END` that no `IF` follows closes the innermost block. -/
theorem after_closing (hplain : nesting.Plain) {outer : List Block}
    (hblocks : nesting.blocks = kind :: outer) (k : Keyword "end".toList)
    (htext : token.text = k.word.text) (hnext : next.any (·.is "if".toList) = false) :
    nesting.after token next = { nesting with blocks := outer, lastClosed := some kind } := by
  have hkeyword : token.is "end".toList := by
    rw [Token.is, htext]
    exact k.folded
  have hcompound : token.is "begin".toList = false := eqFolded_eq_false hkeyword (by decide)
  have hchoice : token.is "case".toList = false := eqFolded_eq_false hkeyword (by decide)
  unfold Nesting.after
  rw [if_neg (by simp [hplain.inBracket]), hplain.quote, hblocks]
  simp only [isQuote_of_word htext, beq_bracket_of_word htext, hcompound, hchoice, hkeyword, hnext,
    Bool.false_eq_true, if_false, Bool.not_false, Bool.and_self, if_true]

/-- A block is passed over, if its body is. -/
theorem passes_block {nesting' inner : Nesting} {begins ends : Token}
    {body rest : List Token} (hplain : nesting.Plain) (k : Keyword (opening kind))
    (hbegins : begins.text = k.word.text)
    (hbody : Passes { nesting with blocks := kind :: nesting.blocks } body (some ends) inner)
    (hinner : inner.Plain) (hblocks : inner.blocks = kind :: nesting.blocks)
    (k' : Keyword "end".toList) (hends : ends.text = k'.word.text)
    (hnext : (rest.head?.or next).any (·.is "if".toList) = false)
    (hrest : Passes { inner with blocks := nesting.blocks, lastClosed := some kind } rest next
      nesting') : Passes nesting (begins :: (body ++ ends :: rest)) next nesting' := by
  have hword : ∀ {token : Token} {w : Word}, token.text = w.text → token.text ≠ [';'] := by
    intro token w htext
    rw [htext]
    exact w.text_ne_singleton (by decide)
  refine .cons (isEnd_eq_false (hword hbegins)) ?_
  rw [after_opening hplain k hbegins]
  refine hbody.append (.cons (isEnd_eq_false (hword hends)) ?_)
  rw [after_closing hinner hblocks k' hends hnext]
  exact hrest

end

/-! ## What a sequence does -/

/-- An item that is no block changes nothing and ends no statement. -/
theorem Leaf.passes (item : Leaf) {nesting : Nesting} (hplain : nesting.Plain) (offset : Nat)
    (next : Option Token) : Passes nesting (tokensAt offset item.written) next nesting := by
  cases item with
  | word w =>
    simp only [written, tokensAt, Written.map, tokens_word, append_nil]
    refine passes_word hplain rfl w.token.compound w.token.choice fun hclose => ?_
    exact absurd (w.token.close.symm.trans hclose) (by decide)
  | symbol s =>
    simp only [written, tokensAt, Written.map, tokens_symbol, append_nil]
    refine passes_inert hplain (Nesting.inert_symbol rfl s.token.symbol.quote s.token.bracket) ?_
    simpa using s.token.terminator
  | literal l =>
    simp only [written, tokensAt, Written.map, append_nil]
    exact passes_literal _ hplain l.token
  | bracketed opening w closing =>
    simp only [written, tokensAt, Written.map, tokens_symbol, tokens_word, append_nil]
    exact passes_bracketed hplain rfl (w.token.text_ne_singleton (by decide)) rfl
  | endIf close kind =>
    simp only [written, tokensAt, Written.map, tokens_word, append_nil]
    have hclose := close.token.folded
    have hkind := kind.token.folded
    have hother : kind.token.word.text.eqFolded "end".toList = false :=
      eqFolded_eq_false hkind (by decide)
    -- the `IF` that follows keeps the `END` from closing a block
    refine Passes.append (passes_word hplain rfl ?_ ?_ fun _ => hkind)
      (passes_word hplain rfl ?_ ?_ fun hend => ?_)
    · exact eqFolded_eq_false hclose (by decide)
    · exact eqFolded_eq_false hclose (by decide)
    · exact eqFolded_eq_false hkind (by decide)
    · exact eqFolded_eq_false hkind (by decide)
    · exact absurd (hother.symm.trans hend) (by decide)

/-- An item that is not the word `IF` does not start with it. -/
theorem Leaf.head_tokensAt {item : Leaf} (h : item.isIf = false) (offset : Nat)
    (ws : List (Written Lexeme)) :
    (tokensAt offset (item.written ++ ws)).head?.any (·.is "if".toList) = false := by
  have hsymbol : ∀ c : Char, eqFolded [c] "if".toList = false :=
    fun c => eqFolded_singleton c (by decide)
  cases item with
  | word w =>
    simp only [written, cons_append, tokensAt, Written.map, tokens_word]
    exact h
  | symbol s =>
    simp only [written, cons_append, tokensAt, Written.map, tokens_symbol]
    exact hsymbol s.token.symbol.char
  | literal l =>
    obtain ⟨inside, -, htokens⟩ := exists_tokens_literal (offset + l.gap.byteSize) l.token
    simp only [written, cons_append, tokensAt, Written.map, htokens]
    exact hsymbol l.token.mark
  | bracketed opening w closing =>
    simp only [written, cons_append, tokensAt, Written.map, tokens_symbol]
    exact hsymbol '['
  | endIf close kind =>
    simp only [written, cons_append, tokensAt, Written.map, tokens_word]
    exact eqFolded_eq_false close.token.folded (by decide)

/-- After the `END` of a block no sequence starts with `IF`. -/
theorem Items.head_tokensAt {within : Option Block} (items : Items within true) (offset : Nat) :
    (tokensAt offset items.written).head?.any (·.is "if".toList) = false := by
  cases items with
  | nil => rfl
  | leaf item apart rest => exact Leaf.head_tokensAt (apart rfl) offset rest.written
  | block kind begins body ends rest =>
    simp only [written, tokensAt, Written.map, tokens_word]
    refine eqFolded_eq_false begins.token.folded ?_
    cases kind <;> decide
  | terminator mark rest =>
    simp only [written, tokensAt, Written.map, tokens_symbol]
    exact eqFolded_singleton ';' (by decide)

/-- A sequence leaves the open blocks as they were and ends no statement. -/
theorem Items.passes {within : Option Block} {afterEnd : Bool} (items : Items within afterEnd)
    {nesting : Nesting} (hplain : nesting.Plain)
    (hwithin : within = some .compound → nesting.blocks ≠ []) (offset : Nat) {next : Option Token}
    (hnext : next.any (·.is "if".toList) = false) : ∃ nesting' : Nesting,
      nesting'.Plain ∧ nesting'.blocks = nesting.blocks ∧
      Passes nesting (tokensAt offset items.written) next nesting' := by
  -- what closes last may change on the way, so only the open blocks are kept through the induction
  induction items generalizing nesting offset next with
  | nil => exact ⟨nesting, hplain, rfl, .nil⟩
  | leaf item _ rest ih =>
    obtain ⟨nesting', hplain', hblocks, hpasses⟩ := ih hplain hwithin
      (offset + (print item.written).byteSize) hnext
    refine ⟨nesting', hplain', hblocks, ?_⟩
    rw [written, tokensAt_append]
    exact (item.passes hplain offset _).append hpasses
  | @block within afterEnd kind begins body ends rest ihBody ihRest =>
    let inside := offset + begins.gap.byteSize + begins.token.word.text.byteSize
    let place := inside + (print body.written).byteSize + ends.gap.byteSize
    let stop := place + ends.token.word.text.byteSize
    obtain ⟨inner, hinner, hblocks, hbody⟩ := @ihBody
      { nesting with blocks := kind :: nesting.blocks } ⟨hplain.inBracket, hplain.quote⟩
      (fun _ => cons_ne_nil _ _) inside (some ⟨place, stop, ends.token.word.text, false⟩)
      (eqFolded_eq_false ends.token.folded (by decide))
    obtain ⟨nesting', hplain', hblocks', hrest⟩ := @ihRest
      { inner with blocks := nesting.blocks, lastClosed := some kind }
      ⟨hinner.inBracket, hinner.quote⟩ hwithin stop next hnext
    -- neither the rest nor what follows it starts with `IF`, so the `END` closes the block
    have hfollow : ((tokensAt stop rest.written).head?.or next).any (·.is "if".toList) = false := by
      have hhead := rest.head_tokensAt stop
      cases hfirst : (tokensAt stop rest.written).head? with
      | none => exact hnext
      | some token => rwa [hfirst] at hhead
    refine ⟨nesting', hplain', hblocks', ?_⟩
    simp only [written, tokensAt, Written.map, tokens_word, tokensAt_append]
    exact passes_block hplain begins.token rfl hbody hinner hblocks ends.token rfl hfollow hrest
  | terminator mark rest ih =>
    obtain ⟨nesting', hplain', hblocks, hpasses⟩ := ih hplain hwithin
      (offset + mark.gap.byteSize + 1) hnext
    refine ⟨nesting', hplain', hblocks, ?_⟩
    simp only [written, tokensAt, Written.map, tokens_symbol]
    refine .cons ?_ ?_
    · simp [Nesting.isEnd, hwithin rfl]
    · rw [Nesting.after_inert hplain (Nesting.inert_semicolon rfl)]
      exact hpasses

/-! ## Scripts -/

/-- A statement of a script : some items and a `;`. -/
structure Command where
  items : Items none false
  ne_nil : items.written ≠ []
  terminator : Written Unit

namespace Command

/-- The lexemes of a statement, its `;` the last. -/
def written (command : Command) : List (Written Lexeme) :=
  command.items.written ++ [command.terminator.map fun _ => .symbol semicolon]

/-- The text of a statement from its first lexeme through its `;`. -/
def text (command : Command) : Text :=
  body command.written

/-- The tokens of each statement, when they are printed from the offset on. -/
def runsAt (offset : Nat) : List Command → List (List Token)
  | [] => []
  | command :: commands => tokensAt offset command.written ::
      runsAt (offset + (print command.written).byteSize) commands

theorem written_ne_nil (command : Command) : command.written ≠ [] :=
  append_ne_nil_of_right_ne_nil _ (cons_ne_nil _ _)

/-- The items of a statement and its `;` are read from and to a clear nesting. -/
theorem exists_passes (command : Command) {nesting : Nesting} (hclear : nesting.Clear)
    (offset : Nat) : ∃ (items : List Token) (terminator : Token) (nesting' : Nesting),
      tokensAt offset command.written = items ++ [terminator] ∧ items ≠ [] ∧ nesting'.Clear ∧
      Passes nesting items (some terminator) nesting' ∧ nesting'.isEnd terminator := by
  let place := offset + (print command.items.written).byteSize + command.terminator.gap.byteSize
  let terminator : Token := ⟨place, place + semicolon.char.utf8Size, [semicolon.char], false⟩
  have hnext : (some terminator).any (·.is "if".toList) = false :=
    eqFolded_singleton ';' (by decide)
  obtain ⟨nesting', hplain, hblocks, hpasses⟩ := command.items.passes hclear.toPlain
    (fun h => by cases h) offset hnext
  have hclear' : nesting'.Clear := ⟨hplain, hblocks.trans hclear.blocks⟩
  refine ⟨_, terminator, nesting', ?_, ?_, hclear', hpasses, Nesting.isEnd_iff.2 ⟨hclear', rfl⟩⟩
  · simp only [written, tokensAt_append, tokensAt, Written.map, tokens_symbol, append_nil]
    rfl
  · obtain ⟨w, ws, hws⟩ := exists_cons_of_ne_nil command.ne_nil
    rw [hws, tokensAt]
    exact append_ne_nil_of_left_ne_nil (w.token.tokens_ne_nil _) _

/-- Printed statements are read as one run each. -/
theorem divided (commands : List Command) {nesting : Nesting} (hclear : nesting.Clear)
    (offset : Nat) : Divided nesting (tokensAt offset (commands.flatMap written))
      (runsAt offset commands) := by
  induction commands generalizing nesting offset with
  | nil => exact .nil
  | cons command commands ih =>
    obtain ⟨items, terminator, nesting', htokens, -, hclear', hpasses, hend⟩ :=
      command.exists_passes hclear offset
    rw [flatMap_cons, tokensAt_append, runsAt, htokens, append_assoc]
    exact .cons hpasses hend (ih hclear' _)

theorem isLone_of_mem_runsAt {commands : List Command} {offset : Nat} {run : List Token}
    (h : run ∈ runsAt offset commands) : isLone run = false := by
  induction commands generalizing offset with
  | nil => simp [runsAt] at h
  | cons command commands ih =>
    rcases mem_cons.1 h with rfl | h
    · obtain ⟨items, terminator, -, htokens, hne, -⟩ :=
        command.exists_passes Nesting.clear_default offset
      obtain ⟨first, rest, rfl⟩ := exists_cons_of_ne_nil hne
      simp [htokens, isLone]
    · exact ih h

theorem extentOf_tokensAt (offset : Nat) (w : Written Lexeme) (ws : List (Written Lexeme)) :
    extentOf (tokensAt offset (w :: ws)) =
      ⟨offset + w.gap.byteSize, offset + (print (w :: ws)).byteSize⟩ := by
  rw [extentOf, head?_tokensAt, getLast?_tokensAt offset (cons_ne_nil _ _)]
  rfl

/-- Each statement stands where its run lies. -/
theorem slices (commands : List Command) (front trail : Text) : List.Forall₂
    (fun run text => slice? (front ++ (print (commands.flatMap written) ++ trail))
      (extentOf run).start (extentOf run).stop = some text)
    (runsAt front.byteSize commands) (commands.map text) := by
  induction commands generalizing front with
  | nil => exact .nil
  | cons command commands ih =>
    have hlater := ih (front ++ print command.written)
    rw [byteSize_append, append_assoc, ← append_assoc (print command.written),
      ← print_append, ← flatMap_cons] at hlater
    refine .cons ?_ hlater
    obtain ⟨w, ws, hws⟩ := exists_cons_of_ne_nil command.written_ne_nil
    rw [hws, extentOf_tokensAt]
    refine slice?_eq_some_iff.2 ⟨front ++ w.gap,
      print (commands.flatMap written) ++ trail, ?_, ?_, ?_⟩
    · simp only [flatMap_cons, print_append, text, hws, print, body, append_assoc]
    · rw [byteSize_append]
    · simp only [text, hws, body, print, byteSize_append]
      omega

end Command

/-- Statements, and blanks behind the last one. -/
structure Script where
  commands : List Command
  trail : Text
  blank : trail.Blank

namespace Script

/-- The lexemes of all statements. -/
def written (script : Script) : List (Written Lexeme) :=
  script.commands.flatMap Command.written

/-- The text of a script. -/
def print (script : Script) : Text :=
  Layout.print script.written ++ script.trail

/-- Of any two neighbours the lexemes are apart. -/
def Separated (script : Script) : Prop :=
  script.written.IsChain Separate

instance (script : Script) : Decidable script.Separated :=
  inferInstanceAs (Decidable (List.IsChain Separate _))

/-- A script is split into its statements, each with its `;`. -/
theorem split_print (script : Script) (h : script.Separated) :
    split .keep script.print = .ok (script.commands.map Command.text) := by
  have htokens : tokens script.print = tokensAt 0 script.written :=
    tokens_print 0 script.written h script.blank
  have hdivided : Statement.Divided {} (tokens script.print)
      (Command.runsAt 0 script.commands) := by
    rw [htokens]
    exact Command.divided script.commands Nesting.clear_default 0
  exact Statement.split_keep_of_divided hdivided (fun _ => Command.isLone_of_mem_runsAt)
    (Command.slices script.commands [] script.trail)

/-- Something after one space. -/
def spaced {α : Type} (token : α) : Written α :=
  ⟨[' '], by simpa [Blank] using (by decide : isBlank ' ' = true), token⟩

/-- Something right after what stands before it. -/
def tight {α : Type} (token : α) : Written α :=
  ⟨[], blank_nil, token⟩

/-- The word with these letters. -/
def spelled (text : Text) (ne_nil : text ≠ [] := by decide)
    (chars : text.all isWordChar = true := by decide) : Word :=
  ⟨text, ne_nil, chars⟩

/-- A spelling of a keyword. -/
def keyword {word : Text} (text : Word) (folded : text.text.eqFolded word = true := by decide) :
    Keyword word :=
  ⟨text, folded⟩

/-- A word that is no keyword, after one space. -/
def plain (w : Word) (compound : w.text.eqFolded "begin".toList = false := by decide)
    (choice : w.text.eqFolded "case".toList = false := by decide)
    (close : w.text.eqFolded "end".toList = false := by decide) : Leaf :=
  .word (spaced ⟨w, compound, choice, close⟩)

/-- A block with a literal, a block, a bracketed identifier and an `END IF` in it, and a statement
after it. -/
def sample : Script where
  commands := [
    { items :=
        .block .compound (tight (keyword (spelled "BEGIN".toList)))
          (.leaf (plain (spelled "IF".toList)) nofun <|
          .leaf (.literal (spaced ⟨'\'', "a;b".toList, by decide, by decide⟩)) nofun <|
          .terminator (tight ()) <|
          .block .choice (spaced (keyword (spelled "Case".toList)))
            (.leaf (plain (spelled "y".toList)) nofun .nil)
            (spaced (keyword (spelled "END".toList))) <|
          .leaf (.symbol (tight ⟨⟨',', by decide, by decide, by decide⟩, by decide, by decide⟩))
            (fun _ => rfl) <|
          .leaf (.bracketed (spaced ()) (tight (spelled "end".toList)) (tight ())) nofun <|
          .terminator (tight ()) <|
          .leaf (.endIf (spaced (keyword (spelled "END".toList)))
            (spaced (keyword (spelled "IF".toList)))) nofun .nil)
          (spaced (keyword (spelled "End".toList))) .nil
      ne_nil := by simp [Items.written]
      terminator := tight () },
    { items := .leaf (plain (spelled "SELECT".toList)) nofun .nil
      ne_nil := by simp [Items.written, Leaf.written, plain]
      terminator := tight () }]
  trail := []
  blank := blank_nil

theorem split_print_sample : sample.Separated ∧
    split .keep "BEGIN IF 'a;b'; Case y END, [end]; END IF End; SELECT;".toList =
      .ok ["BEGIN IF 'a;b'; Case y END, [end]; END IF End;".toList, "SELECT;".toList] := by
  have hseparated : sample.Separated := by decide
  exact ⟨hseparated, split_print sample hseparated⟩

end Script

end Layout

end SqlScript
