import Mathlib.Algebra.GroupWithZero.Nat
import SqlScript.BigQuery.CommaList
import SqlScript.Proofs.Folding
import SqlScript.Proofs.RowSearch

/-!
# Putting rows together

A part of a text that is put together is a row after some blanks (`Layout.Part`). When two parts are
put side by side, the blanks of the second one go to the last cell of the first one
(`Part.text_append`). The result is legible if the first part ends, or the second one starts, with
something that runs together with nothing (`Part.Closes`, `Part.Opens`, `Part.legible_append`).
-/

namespace SqlScript

open List Layout.Row Layout.Cell Layout.Lexeme Text

namespace Layout

variable {σ : Type}

theorem blank_space : Blank [' '] :=
  forall_mem_singleton.2 (by decide)

/-! ## Cells of words and symbols -/

/-- Whether the text is a word in small letters, and no lone `@`. -/
def isSmallWord (t : Text) : Bool :=
  !t.isEmpty && t.all isWordChar && t.toLowerAscii == t && t != ['@']

/-- Digits make a word. -/
theorem isSmallWord_of_digits {t : Text} (hne : t ≠ []) (h : ∀ c ∈ t, c.isDigit) :
    isSmallWord t := by
  have hword : t.all isWordChar := all_eq_true.2 fun c hc =>
    isWordChar_of_isDigit (h c hc)
  have hlower : t.toLowerAscii = t :=
    (map_congr_left fun c hc => toLower_eq_self_of_isDigit (h c hc)).trans t.map_id
  have hname : t ≠ ['@'] := by
    rintro rfl
    exact absurd (h '@' mem_cons_self) (by decide)
  simp [isSmallWord, hne, hword, hlower, hname]

theorem digits_toString (n : Nat) :
    (toString n).toList ≠ [] ∧ ∀ c ∈ (toString n).toList, c.isDigit := by
  rw [Nat.toString_eq_repr, Nat.repr, String.toList_ofList]
  exact ⟨Nat.toDigits_ne_nil, fun c hc => Nat.isDigit_of_mem_toDigits (by decide) (by decide) hc⟩

theorem isSmallWord_toString (n : Nat) : isSmallWord (toString n).toList :=
  isSmallWord_of_digits (digits_toString n).1 (digits_toString n).2

theorem isSmallWord_as : isSmallWord "as".toList := by decide

theorem isSmallWord_by : isSmallWord "by".toList := by decide

theorem isSmallWord_concat : isSmallWord "concat".toList := by decide

theorem isSmallWord_from : isSmallWord "from".toList := by decide

theorem isSmallWord_group : isSmallWord "group".toList := by decide

theorem isSmallWord_select : isSmallWord "select".toList := by decide

/-- Whether the character is a symbol, and no quote mark. -/
def isPlainSymbol (c : Char) : Bool :=
  !isWordChar c && !isBlank c && !isQuoteMark c && c.toLower == c

theorem isPlainSymbol_comma : isPlainSymbol ',' := by decide

theorem isPlainSymbol_semicolon : isPlainSymbol ';' := by decide

theorem isPlainSymbol_open : isPlainSymbol '(' := by decide

theorem isPlainSymbol_close : isPlainSymbol ')' := by decide

namespace Lexeme

/-- What a pattern sees of a lexeme : whether it is a literal, and its text up to case. -/
def shape (lexeme : Lexeme) : Bool × Text :=
  (lexeme.isLiteral, lexeme.text.toLowerAscii)

/-- The lexeme with its word in small letters. -/
def small : Lexeme → Lexeme
  | word w => word ⟨w.text.toLowerAscii, mt map_eq_nil_iff.1 w.ne_nil,
      (all_isWordChar_toLowerAscii w.text).trans w.chars⟩
  | lexeme => lexeme

theorem toLowerAscii_small (lexeme : Lexeme) :
    lexeme.small.text.toLowerAscii = lexeme.text.toLowerAscii := by
  cases lexeme with
  | word w => exact toLowerAscii_toLowerAscii w.text
  | symbol s => rfl
  | literal l => rfl

theorem isLiteral_small (lexeme : Lexeme) : lexeme.small.isLiteral = lexeme.isLiteral := by
  cases lexeme <;> rfl

theorem isNumber_small (lexeme : Lexeme) : lexeme.small.isNumber = lexeme.isNumber := by
  cases lexeme <;> rfl

theorem text_small {lexeme : Lexeme} (h : lexeme.isLiteral = false) :
    lexeme.small.text = lexeme.text.toLowerAscii := by
  cases lexeme with
  | word w => rfl
  | symbol s =>
    exact congrArg (fun c => [c]) (toLower_eq_self_of_isWordChar_eq_false s.word).symm
  | literal l => exact absurd h (by simp [isLiteral])

end Lexeme

theorem Lexeme.keys_of_isLiteral_eq_false {lexeme : Lexeme} (h : lexeme.isLiteral = false) :
    lexeme.keys = [(lexeme.text, false)] := by
  rw [keys, tokens_of_isLiteral_eq_false h]
  rfl

theorem Lexeme.named_small (lexeme : Lexeme) (h : ∀ key ∈ lexeme.keys, key.1 ≠ ['@']) :
    ∀ key ∈ lexeme.small.keys, key.1 ≠ ['@'] := by
  cases lexeme with
  | word w =>
    rw [keys_of_isLiteral_eq_false rfl, forall_mem_singleton] at h ⊢
    intro hlone
    obtain ⟨c, htext, hc⟩ := map_eq_singleton_iff.1 (show w.text.toLowerAscii = _ from hlone)
    exact h (htext.trans (congrArg (fun c => [c]) (eq_of_toLower_eq (by decide) hc)))
  | symbol s => exact h
  | literal l => exact h

namespace Cell

/-- The word with nothing behind it. -/
def ofWord (t : Text) (h : isSmallWord t = true) : Cell σ where
  lexeme := .word ⟨t, by rintro rfl; simp [isSmallWord] at h, by
    simp only [isSmallWord, Bool.and_eq_true] at h
    exact h.1.1.2⟩
  gap _ := []
  filler _ := .nil
  named := .inr <| by
    rw [keys_of_isLiteral_eq_false rfl]
    simp only [isSmallWord, Bool.and_eq_true, bne_iff_ne] at h
    exact forall_mem_singleton.2 h.2
  number := nofun
  even _ := ⟨fun _ => blank_nil, .inl fun _ => rfl⟩

theorem is_ofWord (t : Text) (h : isSmallWord t) : (ofWord t h : Cell σ).is t := by
  refine is_iff.2 ⟨rfl, ?_⟩
  simp only [isSmallWord, Bool.and_eq_true, beq_iff_eq] at h
  exact h.1.2

/-- The symbol with nothing behind it. -/
def ofSymbol (c : Char) (h : isPlainSymbol c = true) : Cell σ where
  lexeme := .symbol ⟨c, by simp_all [isPlainSymbol], by simp_all [isPlainSymbol],
    by simp_all [isPlainSymbol]⟩
  gap _ := []
  filler _ := .nil
  named := .inr <| by
    rw [Lexeme.keys_of_isLiteral_eq_false rfl]
    refine forall_mem_singleton.2 fun heq => ?_
    obtain rfl : c = '@' := by simpa [Lexeme.text] using heq
    exact absurd h (by decide)
  number := nofun
  even _ := ⟨fun _ => Text.blank_nil, .inl fun _ => rfl⟩

theorem is_ofSymbol (c : Char) (h : isPlainSymbol c) : (ofSymbol c h : Cell σ).is [c] := by
  refine is_iff.2 ⟨rfl, ?_⟩
  simp only [isPlainSymbol, Bool.and_eq_true, beq_iff_eq] at h
  exact congrArg (fun c => [c]) h.2

/-- The cell with its word in small letters. -/
def small (cell : Cell σ) : Cell σ where
  lexeme := cell.lexeme.small
  gap := cell.gap
  filler := cell.filler
  named := cell.named.imp_right cell.lexeme.named_small
  number h := cell.number (cell.lexeme.isNumber_small ▸ h)
  even h := cell.even (cell.lexeme.toLowerAscii_small ▸ h)

/-- What a pattern sees of a cell, and what stands behind it. -/
def ending (cell : Cell σ) : (Bool × Text) × (σ → Text) :=
  (cell.lexeme.shape, cell.gap)

theorem is_congr {a b : Cell σ} (h : a.lexeme.shape = b.lexeme.shape) (text : Text) :
    a.is text = b.is text := by
  obtain ⟨hliteral, htext⟩ := Prod.mk.inj h
  rw [is, is, hliteral, htext]

theorem shape_small (cell : Cell σ) : cell.small.lexeme.shape = cell.lexeme.shape :=
  Prod.ext cell.lexeme.isLiteral_small cell.lexeme.toLowerAscii_small

theorem text_small_of_is {cell : Cell σ} {text : Text} (h : cell.is text) :
    cell.small.lexeme.text = text := by
  obtain ⟨hliteral, htext⟩ := is_iff.1 h
  exact (text_small hliteral).trans htext

/-- The cell with more blanks behind it, the same at every index. -/
def padBlank (cell : Cell σ) (gap : Text) (h : gap.Blank) : Cell σ :=
  cell.pad (fun _ => gap) (fun _ => h) fun _ =>
    (Classical.em (gap = [])).imp (fun hnil _ => hnil) fun hne _ => by simp [hne]

end Cell

/-! ## Parts -/

/-- A row after some blanks. -/
structure Part (σ : Type) where
  lead : Text
  blank : lead.Blank
  row : Row σ

/-- Whether the character runs together with no character before or after it. -/
def inert (c : Char) : Bool :=
  !isWordChar c && c != '-' && c != '/' && c != '*'

theorem fuses_of_inert {a b : Char} (h : inert a ∨ inert b) : fuses a b = false := by
  simp only [inert, Bool.and_eq_true, Bool.not_eq_true', bne_iff_ne] at h
  rcases h with ⟨⟨⟨hword, hdash⟩, hslash⟩, -⟩ | ⟨⟨⟨hword, hdash⟩, -⟩, hstar⟩
  · simp [fuses, hword, hdash, hslash]
  · simp [fuses, hword, hdash, hstar]

namespace Part

/-- The text of a part at an index. -/
def text (s : σ) (part : Part σ) : Text :=
  part.lead ++ Row.text s part.row

/-- A row with no blanks before it. -/
def ofRow (row : Row σ) : Part σ :=
  ⟨[], blank_nil, row⟩

instance : EmptyCollection (Part σ) :=
  ⟨ofRow []⟩

/-- Two parts side by side. -/
protected def append (a b : Part σ) : Part σ :=
  match a.row with
  | [] => ⟨a.lead ++ b.lead, a.blank.append b.blank, b.row⟩
  | cell :: row =>
    ⟨a.lead, a.blank, mapLast (·.padBlank b.lead b.blank) (cell :: row) ++ b.row⟩

instance : Append (Part σ) :=
  ⟨Part.append⟩

@[simp]
theorem text_empty (s : σ) : text s (∅ : Part σ) = [] :=
  rfl

@[simp]
theorem text_ofRow (s : σ) (row : Row σ) : text s (ofRow row) = Row.text s row :=
  rfl

theorem append_of_row_eq_nil {a : Part σ} (h : a.row = []) (b : Part σ) :
    a ++ b = ⟨a.lead ++ b.lead, a.blank.append b.blank, b.row⟩ := by
  obtain ⟨lead, blank, row⟩ := a
  obtain rfl : row = [] := h
  rfl

theorem append_of_row_ne_nil {a : Part σ} (h : a.row ≠ []) (b : Part σ) : a ++ b =
    ⟨a.lead, a.blank, mapLast (·.padBlank b.lead b.blank) a.row ++ b.row⟩ := by
  obtain ⟨lead, blank, row⟩ := a
  obtain ⟨cell, row, rfl⟩ := exists_cons_of_ne_nil (show row ≠ [] from h)
  rfl

theorem text_mapLast_padBlank (s : σ) {row : Row σ} (h : row ≠ []) {gap : Text}
    (hgap : gap.Blank) :
    Row.text s (Row.mapLast (·.padBlank gap hgap) row) = Row.text s row ++ gap := by
  obtain ⟨init, cell, rfl⟩ := (eq_nil_or_concat row).resolve_left h
  rw [concat_eq_append, Row.mapLast_concat]
  simp [Cell.padBlank, Cell.pad]

@[simp]
theorem text_append (s : σ) (a b : Part σ) : text s (a ++ b) = text s a ++ text s b := by
  by_cases hrow : a.row = []
  · simp [append_of_row_eq_nil hrow, text, hrow]
  · simp [append_of_row_ne_nil hrow, text, text_mapLast_padBlank s hrow]

/-- The lexemes of a part. -/
def lexemes (part : Part σ) : List Lexeme :=
  part.row.map lexeme

@[simp]
theorem lexemes_ofRow (row : Row σ) : (ofRow row).lexemes = row.map lexeme :=
  rfl

@[simp]
theorem lexemes_append (a b : Part σ) : (a ++ b).lexemes = a.lexemes ++ b.lexemes := by
  by_cases hrow : a.row = []
  · simp [append_of_row_eq_nil hrow, lexemes, hrow]
  · simp only [append_of_row_ne_nil hrow, lexemes, map_append,
      map_lexeme_mapLast (f := (·.padBlank b.lead b.blank)) (fun _ => rfl)]

/-- The keys of the tokens of a part. -/
def keys (part : Part σ) : List (Text × Bool) :=
  Row.keys part.row

@[simp]
theorem keys_ofRow (row : Row σ) : (ofRow row).keys = Row.keys row :=
  rfl

@[simp]
theorem keys_append (a b : Part σ) : (a ++ b).keys = a.keys ++ b.keys := by
  have hkeys : ∀ part : Part σ, part.keys = part.lexemes.flatMap Lexeme.keys := fun part => by
    rw [lexemes, flatMap_map]
    rfl
  rw [hkeys, lexemes_append, flatMap_append, ← hkeys, ← hkeys]

/-- The tokens of the text of a legible part. -/
theorem keys_text (s : σ) {part : Part σ} (h : Row.Legible part.row) :
    (part.text s).keys = part.keys :=
  Row.map_key_tokens_text h s (filler_of_blank part.blank).heading

/-- The part starts with the lexeme, with no blanks before it. -/
structure Starts (lexeme : Lexeme) (part : Part σ) : Prop where
  lead : part.lead = []
  head : part.lexemes.head? = some lexeme

theorem Starts.row_ne_nil {lexeme : Lexeme} {part : Part σ} (h : Starts lexeme part) :
    part.row ≠ [] := by
  intro hnil
  have hhead := h.head
  simp [lexemes, hnil] at hhead

theorem Starts.append {lexeme : Lexeme} {a : Part σ} (h : Starts lexeme a) (b : Part σ) :
    Starts lexeme (a ++ b) where
  lead := by rw [append_of_row_ne_nil h.row_ne_nil]; exact h.lead
  head := by
    rw [lexemes_append, head?_append, h.head]
    rfl

theorem starts_ofRow (cell : Cell σ) (row : Row σ) : Starts cell.lexeme (ofRow (cell :: row)) :=
  ⟨rfl, rfl⟩

/-- The text of a part with a cell behind it, up to the end of the cell's lexeme. -/
theorem Starts.body_append {lexeme : Lexeme} {part : Part σ} (h : Starts lexeme part) (s : σ)
    (cell : Cell σ) : Row.body s (part ++ ofRow [cell]).row = part.text s ++ cell.lexeme.text := by
  rw [append_of_row_ne_nil h.row_ne_nil]
  simp only [ofRow, Row.body_concat, text_mapLast_padBlank s h.row_ne_nil, append_nil, text,
    h.lead, nil_append]

theorem getLast?_append_ofRow (part : Part σ) (cell : Cell σ) :
    (part ++ ofRow [cell]).row.getLast? = some cell := by
  by_cases hrow : part.row = []
  · rw [append_of_row_eq_nil hrow]
    rfl
  · rw [append_of_row_ne_nil hrow]
    exact getLast?_concat

/-! ## Legible parts -/

/-- The part starts with a blank or a character that runs together with nothing, if it has a
lexeme. -/
def Opens (part : Part σ) : Prop :=
  part.lead ≠ [] ∨ ∀ cell ∈ part.row.head?, cell.lexeme.text.head?.all inert = true

/-- The part ends with a filler or a character that runs together with nothing, if it has a
lexeme. -/
def Closes (part : Part σ) : Prop :=
  ∀ cell ∈ part.row.getLast?, (∀ s, cell.gap s ≠ []) ∨ cell.lexeme.text.getLast?.all inert = true

theorem Closes.append {a b : Part σ} (ha : b.row = [] → a.Closes) (hb : b.Closes) :
    (a ++ b).Closes := by
  by_cases hrow : a.row = []
  · rw [append_of_row_eq_nil hrow]
    exact hb
  · rw [append_of_row_ne_nil hrow]
    rcases eq_nil_or_concat b.row with hnil | ⟨init, last, hlast⟩
    · obtain ⟨init, last, hlast⟩ := (eq_nil_or_concat a.row).resolve_left hrow
      rw [concat_eq_append] at hlast
      intro cell hcell
      simp only [hnil, hlast, append_nil, mapLast_concat, getLast?_concat,
        Option.mem_some_iff] at hcell
      subst hcell
      have hclose := ha hnil last (by rw [hlast, getLast?_concat]; rfl)
      refine hclose.imp_left fun hgap s => ?_
      simp [padBlank, pad, hgap s]
    · intro cell hcell
      refine hb cell ?_
      rw [concat_eq_append] at hlast
      simp only [hlast, ← append_assoc, getLast?_concat] at hcell ⊢
      exact hcell

theorem apart_of_inert {a b : Text} (h : a.getLast?.all inert ∨ b.head?.all inert) : Apart a b := by
  refine apart_iff.2 fun x hx y hy => fuses_of_inert ?_
  rw [hx, hy] at h
  exact h

/-- Parts of which one is guarded where they meet are legible together. -/
theorem legible_append {a b : Part σ} (ha : Legible a.row) (hb : Legible b.row)
    (h : a.Closes ∨ b.Opens) : Legible (a ++ b).row := by
  by_cases hrow : a.row = []
  · rw [append_of_row_eq_nil hrow]
    exact hb
  · rw [append_of_row_ne_nil hrow]
    have hpad : Legible (mapLast (·.padBlank b.lead b.blank) a.row) :=
      Legible.mapLast (f := (·.padBlank b.lead b.blank)) (fun _ => rfl) ha
    refine isChain_append.2 ⟨hpad, hb, fun last hlast first hfirst s => ?_⟩
    obtain ⟨init, cell, hcell⟩ := (eq_nil_or_concat a.row).resolve_left hrow
    rw [concat_eq_append] at hcell
    simp only [hcell, mapLast_concat, getLast?_concat, Option.mem_some_iff] at hlast
    subst hlast
    rcases h with hclose | hlead | hopen
    · rcases hclose cell (by rw [hcell, getLast?_concat]; rfl) with hgap | hinert
      · exact .inl (by simp [padBlank, pad, hgap s])
      · exact .inr (apart_of_inert (.inl hinert))
    · exact .inl (by simp [padBlank, pad, hlead])
    · exact .inr (apart_of_inert (.inr (hopen first hfirst)))

/-! ## Joining by commas -/

/-- A comma and a space. -/
def comma : Part σ :=
  ofRow [(ofSymbol ',' (by decide)).spaced [' '] blank_space]

/-- The parts joined by commas. -/
def join : List (Part σ) → Part σ
  | [] => ∅
  | [part] => part
  | part :: next :: parts => part ++ comma ++ join (next :: parts)

theorem text_join (s : σ) (parts : List (Part σ)) :
    text s (join parts) = BigQuery.CommaList.join (parts.map (text s)) := by
  induction parts with
  | nil => rfl
  | cons part parts ih =>
    cases parts with
    | nil => simp [join, BigQuery.CommaList.join]
    | cons next parts =>
      rw [join, text_append, text_append, ih]
      simp [BigQuery.CommaList.join, comma, Cell.spaced, Cell.ofSymbol, Lexeme.text]

theorem opens_comma : (comma : Part σ).Opens := by
  refine .inr fun cell hcell => ?_
  cases hcell
  change inert ','
  decide

theorem closes_comma : (comma : Part σ).Closes := by
  intro cell hcell
  cases hcell
  exact .inl fun _ => cons_ne_nil _ _

theorem legible_join {parts : List (Part σ)} (h : ∀ part ∈ parts, Legible part.row) :
    Legible (join parts).row := by
  induction parts with
  | nil => exact isChain_nil
  | cons part parts ih =>
    rw [forall_mem_cons] at h
    cases parts with
    | nil => exact h.1
    | cons next parts =>
      have hcomma : Legible (part ++ comma).row :=
        legible_append h.1 (isChain_singleton _) (.inr opens_comma)
      exact legible_append hcomma (ih h.2) (.inl (.append nofun closes_comma))

/-! ## Counting cells -/

end Part

namespace Row

/-- How often the word or symbol stands in the row. -/
def weight (text : Text) (row : Row σ) : Nat :=
  row.countP (·.is text)

@[simp]
theorem weight_nil (text : Text) : weight text ([] : Row σ) = 0 :=
  rfl

@[simp]
theorem weight_append (text : Text) (a b : Row σ) :
    weight text (a ++ b) = weight text a + weight text b :=
  countP_append

theorem weight_cons (text : Text) (cell : Cell σ) (row : Row σ) :
    weight text (cell :: row) = weight text [cell] + weight text row :=
  weight_append text [cell] row

theorem weight_is {word : Text} {cell : Cell σ} (h : cell.is word) (text : Text) :
    weight text [cell] = if word = text then 1 else 0 := by
  obtain ⟨hliteral, rfl⟩ := is_iff.1 h
  simp [weight, is, hliteral, countP_cons]

theorem weight_cons_is {word : Text} {cell : Cell σ} (h : cell.is word) (text : Text)
    (row : Row σ) :
    weight text (cell :: row) = (if word = text then 1 else 0) + weight text row := by
  rw [weight_cons, weight_is h]

/-- Only the lexemes are counted. -/
theorem weight_eq_of_map_lexeme (text : Text) {a b : Row σ}
    (h : a.map lexeme = b.map lexeme) : weight text a = weight text b := by
  have hweight : ∀ row : Row σ, weight text row = (row.map lexeme).countP
      fun lexeme => !lexeme.isLiteral && lexeme.text.toLowerAscii == text := fun row => by
    rw [countP_map]
    rfl
  rw [hweight, hweight, h]

theorem weight_small (text : Text) (cell : Cell σ) :
    weight text [cell.small] = weight text [cell] := by
  rw [weight, weight, countP_singleton, countP_singleton, is_congr cell.shape_small]

@[simp]
theorem weight_trimEnd (text : Text) (row : Row σ) : weight text (trimEnd row) = weight text row :=
  weight_eq_of_map_lexeme text (map_lexeme_mapLast (f := Cell.trimEnd) (fun _ => rfl) row)

theorem weight_le_of_isInfix (text : Text) {a b : Row σ} (h : a <:+: b) :
    weight text a ≤ weight text b :=
  h.sublist.countP_le

theorem weight_le_length (text : Text) (row : Row σ) : weight text row ≤ row.length :=
  countP_le_length

end Row

namespace Part

/-- How often the word or symbol stands in the part. -/
def weight (text : Text) (part : Part σ) : Nat :=
  Row.weight text part.row

@[simp]
theorem weight_empty (text : Text) : weight text (∅ : Part σ) = 0 :=
  rfl

@[simp]
theorem weight_ofRow (text : Text) (row : Row σ) : weight text (ofRow row) = Row.weight text row :=
  rfl

@[simp]
theorem weight_append (text : Text) (a b : Part σ) :
    weight text (a ++ b) = weight text a + weight text b := by
  have hlexemes : (a ++ b).row.map Cell.lexeme = (a.row ++ b.row).map Cell.lexeme := by
    rw [map_append]
    exact lexemes_append a b
  rw [weight, Row.weight_eq_of_map_lexeme text hlexemes, Row.weight_append]
  rfl

theorem weight_comma (text : Text) : weight text (comma : Part σ) = if [','] = text then 1 else 0 :=
  Row.weight_is (Cell.is_iff.2 ⟨rfl, rfl⟩) text

theorem weight_join (text : Text) (parts : List (Part σ)) :
    weight text (join parts) =
      (parts.map (weight text)).sum + (parts.length - 1) * weight text (comma : Part σ) := by
  induction parts with
  | nil => simp [join]
  | cons part parts ih =>
    cases parts with
    | nil => simp [join]
    | cons next parts =>
      rw [join, weight_append, weight_append, ih]
      simp only [map_cons, sum_cons, length_cons, Nat.add_sub_cancel, Nat.add_mul, Nat.one_mul]
      omega

end Part

end Layout

end SqlScript
