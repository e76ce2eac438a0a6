import SqlScript.Proofs.Listing

/-!
# Phrases

A phrase is a row with an open end : at least one cell, and what stands behind the last one is said
where the phrase is used. Phrases are linked with blanks between them (`Phrase.link`), so a
construct of the language is a phrase put together from the phrases of its parts, and its text, its
tokens and its row are put together from theirs.

Two things are kept track of on the way. An operand (`Phrase.Operand`) is legible and starts and
ends so that any symbol may stand next to it. An element (`Phrase.Element`) closes its parentheses
and has no comma outside them, so it stays in one piece when a list is cut at its commas
(`Phrase.splitCommas_row_listed`).
-/

namespace SqlScript

open List Layout.Cell

namespace Layout

variable {σ : Type}

/-- Blanks between two phrases. -/
structure Space where
  text : Text
  blank : text.Blank

namespace Space

/-- No blanks. -/
def none : Space :=
  ⟨[], Text.blank_nil⟩

/-- A single space. -/
def one : Space :=
  ⟨[' '], blank_space⟩

end Space

/-- A row of at least one cell with an open end. -/
structure Phrase (σ : Type) where
  init : Row σ
  last : Cell σ

namespace Phrase

/-- The row of a phrase with blanks behind it. -/
def row (p : Phrase σ) (gap : Space) : Row σ :=
  p.init ++ [p.last.spaced gap.text gap.blank]

/-- A single cell. -/
def ofCell (cell : Cell σ) : Phrase σ :=
  ⟨[], cell⟩

/-- A word in small letters. -/
def word (t : Text) (h : isSmallWord t = true) : Phrase σ :=
  ofCell (.ofWord t h)

/-- A symbol. -/
def symbol (c : Char) (h : isPlainSymbol c = true) : Phrase σ :=
  ofCell (.ofSymbol c h)

/-- Two phrases with blanks between them. -/
def link (p : Phrase σ) (gap : Space) (q : Phrase σ) : Phrase σ :=
  ⟨p.row gap ++ q.init, q.last⟩

/-- The text of a phrase at an index. -/
def text (s : σ) (p : Phrase σ) : Text :=
  Row.text s p.init ++ p.last.lexeme.text

/-- The lexemes of a phrase. -/
def lexemes (p : Phrase σ) : List Lexeme :=
  p.init.map lexeme ++ [p.last.lexeme]

@[simp]
theorem row_ofCell (cell : Cell σ) (gap : Space) :
    (ofCell cell).row gap = [cell.spaced gap.text gap.blank] :=
  rfl

@[simp]
theorem row_link (p : Phrase σ) (gap : Space) (q : Phrase σ) (gap' : Space) :
    (p.link gap q).row gap' = p.row gap ++ q.row gap' := by
  simp [row, link]

theorem link_assoc (p : Phrase σ) (gap : Space) (q : Phrase σ) (gap' : Space) (r : Phrase σ) :
    p.link gap (q.link gap' r) = (p.link gap q).link gap' r := by
  simp [link, row]

@[simp]
theorem text_word (s : σ) (t : Text) (h : isSmallWord t) : (word t h).text s = t :=
  rfl

@[simp]
theorem text_symbol (s : σ) (c : Char) (h : isPlainSymbol c) : (symbol c h).text s = [c] :=
  rfl

theorem text_row (s : σ) (p : Phrase σ) (gap : Space) :
    Row.text s (p.row gap) = p.text s ++ gap.text := by
  simp [row, text, spaced]

@[simp]
theorem text_row_none (s : σ) (p : Phrase σ) : Row.text s (p.row .none) = p.text s := by
  simp [text_row, Space.none]

@[simp]
theorem text_link (s : σ) (p : Phrase σ) (gap : Space) (q : Phrase σ) :
    (p.link gap q).text s = p.text s ++ (gap.text ++ q.text s) := by
  rw [← append_assoc, ← text_row]
  simp [text, link]

@[simp]
theorem lexemes_ofCell (cell : Cell σ) : (ofCell cell).lexemes = [cell.lexeme] :=
  rfl

@[simp]
theorem lexemes_link (p : Phrase σ) (gap : Space) (q : Phrase σ) :
    (p.link gap q).lexemes = p.lexemes ++ q.lexemes := by
  simp [lexemes, link, row, spaced]

theorem map_lexeme_row (p : Phrase σ) (gap : Space) : (p.row gap).map lexeme = p.lexemes := by
  simp [row, lexemes, spaced]

theorem trimEnd_row (p : Phrase σ) (gap : Space) : Row.trimEnd (p.row gap) = p.row .none := by
  have hcell : (p.last.spaced gap.text gap.blank).trimEnd =
      p.last.spaced Space.none.text Space.none.blank := by
    simp only [trimEnd, spaced, Text.trimEnd_of_blank gap.blank, Space.none]
  rw [Row.trimEnd, row, Row.mapLast_concat, hcell]
  rfl

/-! ## Tokens -/

/-- The texts of the lexemes of a phrase, in small letters. -/
def words (p : Phrase σ) : List Text :=
  p.lexemes.map (·.text.toLowerAscii)

@[simp]
theorem words_word (t : Text) (h : isSmallWord t) : (word t h : Phrase σ).words = [t] :=
  congrArg (fun t => [t]) (is_iff.1 (@Cell.is_ofWord σ t h)).2

@[simp]
theorem words_symbol (c : Char) (h : isPlainSymbol c) : (symbol c h : Phrase σ).words = [[c]] :=
  congrArg (fun t => [t]) (is_iff.1 (@Cell.is_ofSymbol σ c h)).2

@[simp]
theorem words_link (p : Phrase σ) (gap : Space) (q : Phrase σ) :
    (p.link gap q).words = p.words ++ q.words := by
  simp [words]

/-- A phrase in small letters, without string literals. -/
def Plain (p : Phrase σ) : Prop :=
  ∀ lexeme ∈ p.lexemes, lexeme.isLiteral = false ∧ lexeme.text.toLowerAscii = lexeme.text

theorem plain_word (t : Text) (h : isSmallWord t) : (word t h : Phrase σ).Plain :=
  forall_mem_singleton.2 (is_iff.1 (@Cell.is_ofWord σ t h))

theorem plain_symbol (c : Char) (h : isPlainSymbol c) : (symbol c h : Phrase σ).Plain :=
  forall_mem_singleton.2 (is_iff.1 (@Cell.is_ofSymbol σ c h))

variable {p q : Phrase σ}

theorem Plain.link (hp : p.Plain) (gap : Space) (hq : q.Plain) : (p.link gap q).Plain := by
  intro lexeme hmem
  rw [lexemes_link, mem_append] at hmem
  exact hmem.elim (hp lexeme) (hq lexeme)

theorem Plain.keys_row (h : p.Plain) (gap : Space) :
    Row.keys (p.row gap) = p.words.map fun t => (t, false) := by
  have hkeys : Row.keys (p.row gap) = p.lexemes.flatMap Lexeme.keys := by
    rw [← map_lexeme_row p gap, flatMap_map]
    rfl
  rw [hkeys, words, map_map]
  have hall : ∀ lexemes : List Lexeme, (∀ lexeme ∈ lexemes,
      lexeme.isLiteral = false ∧ lexeme.text.toLowerAscii = lexeme.text) →
      lexemes.flatMap Lexeme.keys =
        lexemes.map ((fun t => (t, false)) ∘ fun lexeme => lexeme.text.toLowerAscii) := by
    intro lexemes hlexemes
    induction lexemes with
    | nil => rfl
    | cons lexeme lexemes ih =>
      rw [forall_mem_cons] at hlexemes
      rw [flatMap_cons, Lexeme.keys_of_isLiteral_eq_false hlexemes.1.1, ih hlexemes.2,
        map_cons, Function.comp_apply, hlexemes.1.2]
      rfl
  exact hall _ h

/-- A word that is not among those of a phrase stands nowhere in its row. -/
theorem weight_row_eq_zero {t : Text} (h : t ∉ p.words) (gap : Space) :
    Row.weight t (p.row gap) = 0 := by
  refine countP_eq_zero.2 fun cell hcell his => h ?_
  refine mem_map.2 ⟨cell.lexeme, ?_, (is_iff.1 his).2⟩
  rw [← map_lexeme_row p gap]
  exact mem_map_of_mem hcell

/-! ## Operands -/

/-- Whether an operand may start with the character. -/
def opening (c : Char) : Bool :=
  isWordChar c || c == '('

/-- Whether an operand may end with the character. -/
def closing (c : Char) : Bool :=
  isWordChar c || c == ')'

theorem fuses_of_closing {a b : Char} (ha : closing a) (hb : isWordChar b = false) :
    fuses a b = false := by
  have hdash : a ≠ '-' := by rintro rfl; exact absurd ha (by decide)
  have hslash : a ≠ '/' := by rintro rfl; exact absurd ha (by decide)
  simp [fuses, hb, hdash, hslash]

theorem fuses_of_opening {a b : Char} (ha : isWordChar a = false) (hb : opening b) :
    fuses a b = false := by
  have hdash : b ≠ '-' := by rintro rfl; exact absurd hb (by decide)
  have hstar : b ≠ '*' := by rintro rfl; exact absurd hb (by decide)
  simp [fuses, ha, hdash, hstar]

/-- The phrase is legible, whatever stands behind it. -/
def Legible (p : Phrase σ) : Prop :=
  Row.Legible (p.row .none)

theorem Legible.row (h : p.Legible) (gap : Space) : Row.Legible (p.row gap) := by
  have hlast := Row.Legible.mapLast (f := (·.spaced gap.text gap.blank)) (fun _ => rfl) h
  rwa [Phrase.row, Row.mapLast_concat] at hlast

theorem legible_ofCell (cell : Cell σ) : (ofCell cell).Legible :=
  isChain_singleton _

/-- Linked phrases are legible if blanks stand between them or they may stand side by side. -/
theorem Legible.link (hp : p.Legible) (hq : q.Legible) {gap : Space}
    (h : gap.text ≠ [] ∨ ∀ lexeme ∈ q.lexemes.head?, Apart p.last.lexeme.text lexeme.text) :
    (p.link gap q).Legible := by
  rw [Legible, row_link]
  refine isChain_append.2 ⟨hp.row gap, hq, fun last hlast first hfirst s => ?_⟩
  obtain rfl : p.last.spaced gap.text gap.blank = last := by
    simpa [Phrase.row] using hlast
  refine h.imp_right fun hapart => hapart first.lexeme ?_
  rw [← map_lexeme_row q .none, head?_map, Option.mem_def.1 hfirst]
  rfl

theorem Legible.of_link {gap : Space} (h : (p.link gap q).Legible) : p.Legible := by
  rw [Legible, row_link] at h
  rw [Legible, ← trimEnd_row p gap]
  exact Row.Legible.trimEnd (isChain_append.1 h).1

/-- A legible phrase that any symbol may stand next to. -/
structure Operand (p : Phrase σ) : Prop where
  legible : p.Legible
  plain : p.Plain
  opens : ∀ lexeme ∈ p.lexemes.head?, ∀ c ∈ lexeme.text.head?, opening c = true
  closes : ∀ c ∈ p.last.lexeme.text.getLast?, closing c = true

theorem operand_word (t : Text) (h : isSmallWord t) : (word t h : Phrase σ).Operand where
  legible := legible_ofCell _
  plain := plain_word t h
  opens := by
    intro lexeme hlexeme c hc
    obtain rfl : Lexeme.word _ = lexeme := Option.some.inj hlexeme
    simp only [isSmallWord, Bool.and_eq_true] at h
    have hword := all_eq_true.1 h.1.1.2 c (mem_of_head? hc)
    simp [opening, hword]
  closes := by
    intro c hc
    simp only [isSmallWord, Bool.and_eq_true] at h
    have hword := all_eq_true.1 h.1.1.2 c (mem_of_getLast? hc)
    simp [closing, hword]

theorem head?_lexemes_link (p : Phrase σ) (gap : Space) (q : Phrase σ) :
    (p.link gap q).lexemes.head? = p.lexemes.head? := by
  rw [lexemes_link, head?_append_of_ne_nil]
  simp [lexemes]

/-- An operand, a symbol and an operand are an operand. -/
theorem Operand.link (hp : p.Operand) (before : Space) {c : Char} (hc : isPlainSymbol c)
    (after : Space) (hq : q.Operand) : ((p.link before (symbol c hc)).link after q).Operand := by
  have hword : isWordChar c = false := by
    simp only [isPlainSymbol, Bool.and_eq_true, Bool.not_eq_true'] at hc
    exact hc.1.1.1
  refine ⟨?_, (hp.plain.link before (plain_symbol c hc)).link after hq.plain, ?_, hq.closes⟩
  · refine (hp.legible.link (legible_ofCell _) (.inr ?_)).link hq.legible (.inr ?_)
    · intro lexeme hlexeme
      obtain rfl : Lexeme.symbol _ = lexeme := Option.some.inj hlexeme
      refine apart_iff.2 fun a ha b hb => fuses_of_closing (hp.closes a ha) ?_
      obtain rfl : c = b := Option.some.inj hb
      exact hword
    · intro lexeme hlexeme
      refine apart_iff.2 fun a ha b hb => fuses_of_opening ?_ (hq.opens lexeme hlexeme b hb)
      obtain rfl : c = a := Option.some.inj ha
      exact hword
  · rw [head?_lexemes_link, head?_lexemes_link]
    exact hp.opens

/-- A phrase between parentheses. -/
def parens (before : Space) (p : Phrase σ) (after : Space) : Phrase σ :=
  ((symbol '(' (by decide)).link before p).link after (symbol ')' (by decide))

theorem legible_paren_link (h : p.Legible) (gap : Space) :
    ((symbol '(' (by decide)).link gap p).Legible :=
  (legible_ofCell _).link h
    (.inr fun _ _ => Part.apart_of_inert (.inl (show inert '(' by decide)))

theorem Operand.parens (h : p.Operand) (before after : Space) :
    (parens before p after).Operand where
  legible := by
    refine (legible_paren_link h.legible before).link (legible_ofCell _)
      (.inr fun lexeme hlexeme => ?_)
    obtain rfl : Lexeme.symbol _ = lexeme := Option.some.inj hlexeme
    exact Part.apart_of_inert (.inr (show inert ')' by decide))
  plain := ((plain_symbol _ _).link before h.plain).link after (plain_symbol _ _)
  opens := by
    intro lexeme hlexeme c hc
    rw [Phrase.parens, head?_lexemes_link, head?_lexemes_link] at hlexeme
    obtain rfl : Lexeme.symbol _ = lexeme := Option.some.inj hlexeme
    obtain rfl : '(' = c := Option.some.inj hc
    decide
  closes := by
    intro c hc
    obtain rfl : ')' = c := Option.some.inj hc
    decide

/-- Parentheses with nothing between them. -/
def noArguments (inside : Space) : Phrase σ :=
  (symbol '(' (by decide)).link inside (symbol ')' (by decide))

theorem operand_noArguments (inside : Space) : (noArguments inside : Phrase σ).Operand where
  legible := legible_paren_link (legible_ofCell _) inside
  plain := (plain_symbol _ _).link inside (plain_symbol _ _)
  opens := by
    intro lexeme hlexeme c hc
    rw [noArguments, head?_lexemes_link] at hlexeme
    obtain rfl : Lexeme.symbol _ = lexeme := Option.some.inj hlexeme
    obtain rfl : '(' = c := Option.some.inj hc
    decide
  closes := by
    intro c hc
    obtain rfl : ')' = c := Option.some.inj hc
    decide

/-- A word before an operand that starts with a parenthesis. -/
theorem Operand.called {p : Phrase σ} (h : p.Operand) (hparen : p.words.head? = some ['('])
    (t : Text) (ht : isSmallWord t) (gap : Space) : ((word t ht).link gap p).Operand where
  legible := by
    refine (legible_ofCell _).link h.legible (.inr fun lexeme hlexeme => ?_)
    have htext : lexeme.text = ['('] := by
      rw [words, head?_map, Option.mem_def.1 hlexeme] at hparen
      rw [← (h.plain lexeme (mem_of_mem_head? hlexeme)).2]
      exact Option.some.inj hparen
    rw [htext]
    exact Part.apart_of_inert (.inr (show inert '(' by decide))
  plain := (plain_word t ht).link gap h.plain
  opens := by
    rw [head?_lexemes_link]
    exact (operand_word t ht).opens
  closes := h.closes

end Phrase

/-! ## Elements of a list -/

namespace Row

/-- Whether the row, from a depth in parentheses on, closes its parentheses and has no comma outside
of them. -/
def isElement (depth : Nat) : Row σ → Bool
  | [] => depth == 0
  | cell :: row =>
    !(depth == 0 && (cell.is [';'] || cell.is [')'] || cell.is [','])) &&
      isElement (cell.depthAfter depth) row

variable {depth : Nat} {row : Row σ}

theorem isElement_cons {cell : Cell σ}
    (h : isElement depth (cell :: row)) : (depth == 0 && cell.is [',']) = false ∧
      (depth == 0 && (cell.is [';'] || cell.is [')'])) = false ∧
      isElement (cell.depthAfter depth) row := by
  simp only [isElement, Bool.and_eq_true, Bool.not_eq_true'] at h
  obtain ⟨hnone, hrow⟩ := h
  cases hdepth : depth == 0 with
  | false => exact ⟨rfl, rfl, hrow⟩
  | true =>
    rw [hdepth, Bool.true_and, Bool.or_eq_false_iff] at hnone
    exact ⟨hnone.2, hnone.1, hrow⟩

theorem closes_of_isElement (h : isElement depth row) : closes depth row := by
  induction row generalizing depth with
  | nil => exact h
  | cons cell row ih =>
    obtain ⟨-, hnot, hrow⟩ := isElement_cons h
    rw [closes, hnot, ih hrow]
    rfl

/-- An element up to a comma is cut off in one piece. -/
theorem splitCommas_append (h : isElement depth row) {comma : Cell σ}
    (hcomma : comma.is [',']) (later : Row σ) :
    splitCommas depth (row ++ comma :: later) = row :: splitCommas 0 later := by
  induction row generalizing depth with
  | nil =>
    obtain rfl : depth = 0 := by simpa [isElement] using h
    simp [splitCommas, hcomma]
  | cons cell row ih =>
    obtain ⟨hnot, -, hrow⟩ := isElement_cons h
    rw [cons_append, splitCommas, hnot, ih hrow]
    rfl

theorem splitCommas_of_isElement (h : isElement depth row) : splitCommas depth row = [row] := by
  induction row generalizing depth with
  | nil => rfl
  | cons cell row ih =>
    obtain ⟨hnot, -, hrow⟩ := isElement_cons h
    rw [splitCommas, hnot, ih hrow]
    rfl

/-- A list is closed if what stands between two of its commas is. -/
theorem closes_append_cons (h : closes depth row) {comma : Cell σ}
    (hcomma : comma.is [',']) (later : Row σ) :
    closes depth (row ++ comma :: later) = closes 0 later := by
  induction row generalizing depth with
  | nil =>
    obtain rfl : depth = 0 := by simpa [closes] using h
    have htext := is_iff.1 hcomma
    simp [closes, depthAfter, is, htext]
  | cons cell row ih =>
    simp only [closes, Bool.and_eq_true] at h
    rw [cons_append, closes, h.1, ih h.2]
    rfl

end Row

namespace Phrase

theorem is_spaced_word (t : Text) (h : isSmallWord t) (gap : Space) {c : Char}
    (hc : isWordChar c = false) :
    ((ofWord t h).spaced gap.text gap.blank : Cell σ).is [c] = false := by
  refine Bool.eq_false_iff.2 fun his => ?_
  have htext : t = [c] :=
    (is_iff.1 (@Cell.is_ofWord σ t h)).2.symm.trans (is_iff.1 his).2
  simp only [isSmallWord, htext, Bool.and_eq_true, all_cons, hc] at h
  simp at h

theorem is_spaced_symbol (c : Char) (h : isPlainSymbol c) (gap : Space) (d : Char) :
    ((ofSymbol c h).spaced gap.text gap.blank : Cell σ).is [d] = (c == d) := by
  rw [Bool.eq_iff_iff, is_iff, beq_iff_eq]
  have htext := (is_iff.1 (@Cell.is_ofSymbol σ c h)).2
  have hcell : ((ofSymbol c h).spaced gap.text gap.blank : Cell σ).lexeme =
    (ofSymbol c h : Cell σ).lexeme := rfl
  rw [hcell, htext]
  simp [ofSymbol, Lexeme.isLiteral]

/-- In the row of a list the phrase goes on the element it stands in. -/
def Element (p : Phrase σ) : Prop :=
  ∀ gap depth later, Row.isElement depth (p.row gap ++ later) = Row.isElement depth later

/-- In the row of a list the phrase goes on the element it stands in, between parentheses. -/
def Arguments (p : Phrase σ) : Prop :=
  ∀ gap depth later,
    Row.isElement (depth + 1) (p.row gap ++ later) = Row.isElement (depth + 1) later

variable {p : Phrase σ} {ps : List (Phrase σ)}

theorem Element.arguments (h : p.Element) : p.Arguments :=
  fun gap depth later => h gap (depth + 1) later

theorem Element.link {q : Phrase σ} (hp : p.Element) (gap : Space) (hq : q.Element) :
    (p.link gap q).Element := by
  intro gap' depth later
  rw [row_link, append_assoc, hp, hq]

theorem Arguments.link {q : Phrase σ} (hp : p.Arguments) (gap : Space) (hq : q.Arguments) :
    (p.link gap q).Arguments := by
  intro gap' depth later
  rw [row_link, append_assoc, hp, hq]

theorem element_word (t : Text) (h : isSmallWord t) : (word t h : Phrase σ).Element := by
  intro gap depth later
  have his : ∀ c, isWordChar c = false →
      ((ofWord t h).spaced gap.text gap.blank : Cell σ).is [c] = false :=
    fun c => is_spaced_word t h gap
  simp [word, Row.isElement, depthAfter, his ';' (by decide), his ')' (by decide),
    his ',' (by decide), his '(' (by decide)]

theorem element_symbol {c : Char} (h : isPlainSymbol c) (hc : c ∉ "(),;".toList) :
    (symbol c h : Phrase σ).Element := by
  intro gap depth later
  have hne : c ≠ '(' ∧ c ≠ ')' ∧ c ≠ ',' ∧ c ≠ ';' := by simpa using hc
  simp [symbol, Row.isElement, depthAfter, is_spaced_symbol, hne]

theorem arguments_comma : (symbol ',' (by decide) : Phrase σ).Arguments := by
  intro gap depth later
  simp [symbol, Row.isElement, depthAfter, is_spaced_symbol]

theorem isElement_paren (depth : Nat) (gap : Space) (later : Row σ) :
    Row.isElement depth ((symbol '(' (by decide)).row gap ++ later) =
      Row.isElement (depth + 1) later := by
  simp [symbol, Row.isElement, depthAfter, is_spaced_symbol]

theorem isElement_closing (depth : Nat) (gap : Space) (later : Row σ) :
    Row.isElement (depth + 1) ((symbol ')' (by decide)).row gap ++ later) =
      Row.isElement depth later := by
  simp [symbol, Row.isElement, depthAfter, is_spaced_symbol]

theorem Arguments.parens (h : p.Arguments) (before after : Space) :
    (parens before p after).Element := by
  intro gap depth later
  rw [Phrase.parens, row_link, row_link, append_assoc, append_assoc, isElement_paren, h,
    isElement_closing]

theorem element_noArguments (inside : Space) : (noArguments inside : Phrase σ).Element := by
  intro gap depth later
  rw [noArguments, row_link, append_assoc, isElement_paren, isElement_closing]

theorem Element.isElement_row (h : p.Element) (gap : Space) : Row.isElement 0 (p.row gap) := by
  have hrow := h gap 0 []
  rwa [append_nil] at hrow

/-! ## Lists -/

/-- Phrases with commas between them. -/
def listed : Phrase σ → List (Phrase σ) → Phrase σ
  | p, [] => p
  | p, q :: ps => (p.link .none (symbol ',' isPlainSymbol_comma)).link .one (listed q ps)

theorem text_listed (s : σ) (p : Phrase σ) (ps : List (Phrase σ)) :
    (listed p ps).text s = BigQuery.CommaList.join ((p :: ps).map (text s)) := by
  induction ps generalizing p with
  | nil => simp [listed, BigQuery.CommaList.join]
  | cons q ps ih =>
    rw [listed, text_link, text_link, ih]
    simp [BigQuery.CommaList.join, Space.none, Space.one]

theorem words_listed (p : Phrase σ) (ps : List (Phrase σ)) :
    (listed p ps).words = [[',']].intercalate ((p :: ps).map words) := by
  induction ps generalizing p with
  | nil => simp [listed]
  | cons q ps ih =>
    rw [listed, words_link, words_link, ih]
    simp

theorem mem_words_listed {t : Text}
    (h : t ∈ (listed p ps).words) : t = [','] ∨ ∃ q ∈ p :: ps, t ∈ q.words := by
  induction ps generalizing p with
  | nil => exact .inr ⟨p, mem_cons_self, h⟩
  | cons q ps ih =>
    rw [listed, words_link, words_link, words_symbol, mem_append, mem_append, mem_singleton] at h
    rcases h with (h | h) | h
    · exact .inr ⟨p, mem_cons_self, h⟩
    · exact .inl h
    · exact (ih h).imp_right fun ⟨r, hr, hmem⟩ => ⟨r, mem_cons_of_mem p hr, hmem⟩

theorem operand_listed (h : ∀ q ∈ p :: ps, q.Operand) : (listed p ps).Operand := by
  induction ps generalizing p with
  | nil => exact h p mem_cons_self
  | cons q ps ih =>
    rw [forall_mem_cons] at h
    exact h.1.link .none _ .one (ih h.2)

theorem row_listed_cons (p q : Phrase σ) (ps : List (Phrase σ)) (gap : Space) :
    (listed p (q :: ps)).row gap = p.row .none ++
      (ofSymbol ',' (by decide)).spaced Space.one.text Space.one.blank ::
        (listed q ps).row gap := by
  simp [listed, symbol]

theorem closed_row_listed (h : ∀ q ∈ p :: ps, q.Element)
    (gap : Space) : Row.Closed ((listed p ps).row gap) := by
  induction ps generalizing p with
  | nil => exact Row.closes_of_isElement ((h p mem_cons_self).isElement_row gap)
  | cons q ps ih =>
    rw [forall_mem_cons] at h
    rw [row_listed_cons, Row.Closed, Row.closes_append_cons
      (Row.closes_of_isElement (h.1.isElement_row .none)) rfl]
    exact ih h.2

/-- A list is cut at its commas into the phrases it was made of. -/
theorem splitCommas_row_listed (h : ∀ q ∈ p :: ps, q.Element) (gap : Space) :
    (Row.splitCommas 0 ((listed p ps).row gap)).map Row.trimEnd =
      (p :: ps).map fun q => q.row .none := by
  induction ps generalizing p with
  | nil =>
    rw [listed, Row.splitCommas_of_isElement ((h p mem_cons_self).isElement_row gap)]
    simp [trimEnd_row]
  | cons q ps ih =>
    rw [forall_mem_cons] at h
    rw [row_listed_cons, Row.splitCommas_append (h.1.isElement_row .none) rfl, map_cons,
      ih h.2, trimEnd_row]
    rfl

end Phrase

end Layout

end SqlScript
