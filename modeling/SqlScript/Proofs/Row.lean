import Mathlib.Data.List.Chain
import SqlScript.Proofs.Layout
import SqlScript.Proofs.Stretch

/-!
# Rows of lexemes with what stands between them

A text is written as lexemes, each with a filler behind it : blanks and closed block comments
(`Layout.Filler`). Where fillers keep the lexemes apart, the tokens of the text are those of the
lexemes, whatever the fillers are (`Layout.Strand.tokens_scanFrom`). The key of a token is its text
and its flag, without its place; the keys of a text do not see the fillers
(`Layout.Strand.map_key_tokens`).

A row (`Layout.Row`) is a family of such texts with the same lexemes : the filler behind a cell is a
function of an index. So what is shown of a row at an index is shown of all the texts of the family
at once, and where the answer is a row again, the fillers had no part in it.
-/

namespace SqlScript

open List Text Token

namespace Layout

/-! ## Fillers -/

/-- Blanks and closed block comments. A comment stays closed when its single quotes are taken
out. -/
inductive Filler : Text → Prop
  | nil : Filler []
  | blank {c : Char} {t : Text} (hblank : isBlank c = true) (later : Filler t) : Filler (c :: t)
  | comment {s t : Text} (hclosed : ¬ ['*', '/'] <:+: s.filter (· != '\'')) (later : Filler t) :
      Filler ('/' :: '*' :: (s ++ '*' :: '/' :: t))

variable {a b t : Text}

theorem Filler.append (ha : Filler a) (hb : Filler b) : Filler (a ++ b) := by
  induction ha with
  | nil => exact hb
  | blank hblank _ ih => exact .blank hblank ih
  | comment hclosed _ ih =>
    simp only [cons_append, append_assoc]
    exact .comment hclosed ih

theorem filler_of_blank (h : t.Blank) : Filler t := by
  induction t with
  | nil => exact .nil
  | cons c t ih =>
    rw [Text.Blank, forall_mem_cons] at h
    exact .blank h.1 (ih h.2)

theorem infix_filter {s : Text} (h : ['*', '/'] <:+: s) : ['*', '/'] <:+: s.filter (· != '\'') := by
  obtain ⟨a, b, rfl⟩ := h
  exact ⟨a.filter (· != '\''), b.filter (· != '\''), by simp⟩

/-- A filler that ends with blanks is a filler without them. -/
theorem Filler.of_append_blank (h : Filler t) (ht : t = a ++ b) (hb : b.Blank) : Filler a := by
  induction h generalizing a with
  | nil =>
    rw [(append_eq_nil_iff.1 ht.symm).1]
    exact .nil
  | @blank c t hblank _ ih =>
    cases a with
    | nil => exact .nil
    | cons d a =>
      obtain ⟨rfl, hrest⟩ := cons.inj ht
      exact .blank hblank (ih hrest)
  | @comment s t hclosed _ ih =>
    -- the slash that closes the comment is no blank, so the comment lies in the first part
    have hsplit : ('/' :: '*' :: (s ++ ['*', '/'])) ++ t = a ++ b := by simpa using ht
    rcases append_eq_append_iff.1 hsplit with ⟨a', rfl, hrest⟩ | ⟨b', hcomment, rfl⟩
    · simpa using Filler.comment hclosed (ih hrest)
    · cases b' using reverseRecOn with
      | nil =>
        rw [append_nil] at hcomment
        rw [← hcomment]
        simpa using Filler.comment hclosed Filler.nil
      | append_singleton init c =>
        have hlast := congrArg getLast? hcomment
        rw [← append_assoc, getLast?_concat] at hlast
        have hc : c = '/' := by
          have : ('/' :: '*' :: (s ++ ['*', '/'])) = '/' :: '*' :: (s ++ ['*']) ++ ['/'] := by simp
          rw [this, getLast?_concat] at hlast
          exact (Option.some.inj hlast).symm
        have hslash := hb c (by simp)
        rw [hc] at hslash
        exact absurd hslash (by decide)

theorem Filler.trimEnd (h : Filler t) : Filler t.trimEnd := by
  obtain ⟨gap, hblank, hgap⟩ := exists_append_trimEnd t
  exact h.of_append_blank hgap hblank

/-- A filler without its single quotes is a filler. -/
theorem Filler.filter (h : Filler t) : Filler (t.filter (· != '\'')) := by
  induction h with
  | nil => exact .nil
  | @blank c t hblank _ ih =>
    by_cases hc : c = '\''
    · simpa [hc] using ih
    · simpa [hc] using Filler.blank hblank ih
  | @comment s t hclosed _ ih =>
    have hidem : (s.filter (· != '\'')).filter (· != '\'') = s.filter (· != '\'') := by simp
    have hcomment := Filler.comment (s := s.filter (· != '\'')) (by rwa [hidem]) ih
    simpa using hcomment

theorem apart_filler {gap c : Text} (h : Filler gap) (hc : gap ≠ [] ∨ Apart a c) :
    Apart a (gap ++ c) := by
  cases h with
  | nil => exact hc.resolve_left (by simp)
  | blank hblank _ =>
    refine apart_iff.2 fun x _ y hy => ?_
    cases hy
    exact fuses_of_isBlank hblank
  | comment _ _ =>
    refine apart_iff.2 fun x _ y hy => ?_
    cases hy
    have hword : isWordChar '/' = false := by decide
    simp [fuses, hword]

/-- What may stand before the first lexeme of a text : blanks and closed comments of any kind. -/
inductive Heading : Text → Prop
  | nil : Heading []
  | blank {c : Char} {t : Text} (hblank : isBlank c = true) (later : Heading t) : Heading (c :: t)
  | comment {body t : Text} (hcomment : ∀ rest, IsComment body rest) (later : Heading t) :
      Heading (body ++ t)

theorem Heading.append (ha : Heading a) (hb : Heading b) : Heading (a ++ b) := by
  induction ha with
  | nil => exact hb
  | blank hblank _ ih => exact .blank hblank ih
  | comment hcomment _ ih =>
    rw [append_assoc]
    exact .comment hcomment ih

theorem Filler.heading (h : Filler t) : Heading t := by
  induction h with
  | nil => exact .nil
  | blank hblank _ ih => exact .blank hblank ih
  | @comment s t hclosed _ ih =>
    have hcomment : ∀ rest, IsComment ('/' :: '*' :: (s ++ ['*', '/'])) rest := fun rest =>
      .block rest fun hpart => hclosed (infix_filter hpart)
    simpa using Heading.comment hcomment ih

theorem tokens_scanFrom_heading (offset : Nat) {lead : Text} (h : Heading lead) (t : Text) :
    (scanFrom offset none (lead ++ t)).tokens =
      (scanFrom (offset + lead.byteSize) none t).tokens := by
  induction h generalizing offset with
  | nil => rfl
  | @blank c lead hblank _ ih =>
    have hpiece : piece? false (c :: (lead ++ t)) = some (.blank c, lead ++ t) :=
      piece?_eq_blank_iff.2 ⟨rfl, hblank⟩
    rw [cons_append, tokens_scanFrom offset none hpiece, byteSize_cons, ← Nat.add_assoc]
    exact ih (offset + c.utf8Size)
  | @comment body lead hcomment _ ih =>
    have hsplit : splitComment? (body ++ (lead ++ t)) = some (body, lead ++ t) :=
      splitComment?_eq_some_iff.2 ⟨rfl, hcomment _⟩
    have hpiece : piece? false (body ++ (lead ++ t)) = some (.comment body, lead ++ t) :=
      piece?_eq_comment_iff.2 ⟨rfl, hsplit⟩
    rw [append_assoc, tokens_scanFrom offset none hpiece, byteSize_append, ← Nat.add_assoc]
    exact ih _

theorem tokens_scanFrom_filler (offset : Nat) {gap : Text} (h : Filler gap) (t : Text) :
    (scanFrom offset none (gap ++ t)).tokens = (scanFrom (offset + gap.byteSize) none t).tokens :=
  tokens_scanFrom_heading offset h.heading t

/-! ## Keys -/

end Layout

/-- The text of a token and its flag, without its place. -/
def Token.key (token : Token) : Text × Bool :=
  (token.text, token.inQuotes)

/-- The tokens of a text, without their places. -/
def Text.keys (t : Text) : List (Text × Bool) :=
  (tokens t).map key

/-- A token with the key. -/
def Token.ofKey (key : Text × Bool) : Token :=
  ⟨0, 0, key.1, key.2⟩

namespace Layout

theorem map_key_scanFrom (t : Text) {quote quote' : Option OpenQuote}
    (h : quote.map OpenQuote.mark = quote'.map OpenQuote.mark) (offset offset' : Nat) :
    (scanFrom offset quote t).tokens.map key = (scanFrom offset' quote' t).tokens.map key := by
  have hkey : ∀ k, key ∘ moved k = key := fun _ => rfl
  have hzero := tokens_scanFrom_moved offset t (rfl : quote.map OpenQuote.mark = _) 0
  have hzero' := tokens_scanFrom_moved offset' t h 0
  rw [Nat.zero_add] at hzero hzero'
  rw [hzero, hzero', map_map, map_map, hkey, hkey]

/-- The keys of the tokens of a lexeme. -/
def Lexeme.keys (lexeme : Lexeme) : List (Text × Bool) :=
  (lexeme.tokens 0).map key

theorem Lexeme.map_key_tokens (offset : Nat) (lexeme : Lexeme) :
    (lexeme.tokens offset).map key = lexeme.keys :=
  map_key_scanFrom lexeme.text rfl offset 0

/-! ## Strands -/

/-- Lexemes, each with what stands behind it. -/
abbrev Strand := List (Lexeme × Text)

namespace Strand

/-- The text of a strand. -/
def text : Strand → Text
  | [] => []
  | (lexeme, gap) :: strand => lexeme.text ++ (gap ++ text strand)

/-- The tokens of the lexemes, in a text that starts at the offset. -/
def tokens (offset : Nat) : Strand → List Token
  | [] => []
  | (lexeme, gap) :: strand =>
    lexeme.tokens offset ++ tokens (offset + lexeme.text.byteSize + gap.byteSize) strand

/-- Fillers stand between the lexemes, or else the lexemes do not run together. -/
structure Legible (strand : Strand) : Prop where
  filler : ∀ part ∈ strand, Filler part.2
  apart : strand.IsChain fun a b => a.2 ≠ [] ∨ Apart a.1.text b.1.text

theorem Legible.tail {part : Lexeme × Text} {strand : Strand} (h : Legible (part :: strand)) :
    Legible strand :=
  ⟨fun _ hmem => h.filler _ (mem_cons_of_mem part hmem), h.apart.tail⟩

theorem Legible.apart_head {part : Lexeme × Text} {strand : Strand} (h : Legible (part :: strand)) :
    Apart part.1.text (part.2 ++ text strand) := by
  refine apart_filler (h.filler part mem_cons_self) ?_
  cases strand with
  | nil => exact .inr (apart_nil _)
  | cons next strand =>
    exact (isChain_cons_cons.1 h.apart).1.imp_right fun hapart =>
      apart_append_of_ne_nil next.1.text_ne_nil hapart _

/-- Legible lexemes are read one by one, and the fillers between them are passed over. -/
theorem tokens_scanFrom (offset : Nat) {strand : Strand} (h : Legible strand) :
    (scanFrom offset none (text strand)).tokens = tokens offset strand := by
  induction strand generalizing offset with
  | nil => exact tokens_scanFrom_nil offset none
  | cons part strand ih =>
    rw [text, tokens_scanFrom_append offset part.1 h.apart_head,
      tokens_scanFrom_filler _ (h.filler part mem_cons_self), ih _ h.tail]
    rfl

theorem map_key_tokens (offset : Nat) (strand : Strand) :
    (tokens offset strand).map key = strand.flatMap fun part => part.1.keys := by
  induction strand generalizing offset with
  | nil => rfl
  | cons part strand ih =>
    rw [tokens, map_append, Lexeme.map_key_tokens, ih, flatMap_cons]

end Strand

/-! ## Cells -/

/-- Whether the lexeme is in quotes. -/
def Lexeme.isLiteral : Lexeme → Bool
  | literal _ => true
  | _ => false

/-- Whether the lexeme is a number between single quotes. -/
def Lexeme.isNumber : Lexeme → Bool
  | literal l => l.mark == '\'' && !l.content.isEmpty && l.content.all Char.isDigit
  | _ => false

theorem Lexeme.solid (lexeme : Lexeme) : lexeme.text.Solid := by
  cases lexeme with
  | word w =>
    exact solid_of_forall w.ne_nil fun c hc =>
      isBlank_of_isWordChar (all_eq_true.1 w.chars c hc)
  | symbol s => exact solid_singleton s.blank
  | literal l =>
    have hmark := solid_singleton (isBlank_of_isQuoteMark l.quote)
    exact hmark.append_append hmark l.content

/-- What may stand behind the word `by` : blanks, and at every index some or at every index none.
-/
structure Even {σ : Type} (gap : σ → Text) : Prop where
  blank : ∀ s, (gap s).Blank
  empty : (∀ s, gap s = []) ∨ ∀ s, gap s ≠ []

/-- A lexeme with the filler behind it at every index. No token of it is a lone `@`, unless there is
one index only. Only blanks stand behind a quoted number and behind the word `by`. -/
structure Cell (σ : Type) where
  lexeme : Lexeme
  gap : σ → Text
  filler : ∀ s, Filler (gap s)
  named : Subsingleton σ ∨ ∀ key ∈ lexeme.keys, key.1 ≠ ['@']
  number : lexeme.isNumber = true → ∀ s, (gap s).Blank
  even : lexeme.text.toLowerAscii = ['b', 'y'] → Even gap

namespace Cell

variable {σ : Type}

/-- Whether the cell is the word in small letters or the symbol, up to case and outside of
literals. -/
def is (cell : Cell σ) (text : Text) : Bool :=
  !cell.lexeme.isLiteral && cell.lexeme.text.toLowerAscii == text

theorem is_iff {cell : Cell σ} {text : Text} :
    cell.is text ↔ cell.lexeme.isLiteral = false ∧ cell.lexeme.text.toLowerAscii = text := by
  simp [is]

theorem text_of_is {cell : Cell σ} {c : Char} (h : cell.is [c]) (hc : c.isLower = false) :
    cell.lexeme.text = [c] := by
  obtain ⟨d, htext, hd⟩ := map_eq_singleton_iff.1 (is_iff.1 h).2
  rw [htext, eq_of_toLower_eq hc hd]

theorem is_singleton_iff {cell : Cell σ} {c : Char} (hc : c.isLower = false)
    (hsmall : c.toLower = c) :
    cell.is [c] ↔ cell.lexeme.isLiteral = false ∧ cell.lexeme.text = [c] := by
  refine ⟨fun h => ⟨(is_iff.1 h).1, text_of_is h hc⟩, fun ⟨hcell, htext⟩ => is_iff.2 ⟨hcell, ?_⟩⟩
  rw [htext, toLowerAscii, map_singleton, hsmall]

/-- The cell with blanks that do not depend on the index behind it. -/
def spaced (cell : Cell σ) (gap : Text) (h : gap.Blank) : Cell σ where
  lexeme := cell.lexeme
  gap _ := gap
  filler _ := filler_of_blank h
  named := cell.named
  number _ _ := h
  even _ := ⟨fun _ => h, (Classical.em (gap = [])).imp (fun h _ => h) fun h _ => h⟩

/-- The cell without the blanks at the end of its filler. -/
def trimEnd (cell : Cell σ) : Cell σ where
  lexeme := cell.lexeme
  gap s := (cell.gap s).trimEnd
  filler s := (cell.filler s).trimEnd
  named := cell.named
  number h s := by rw [trimEnd_of_blank (cell.number h s)]; exact blank_nil
  even h := by
    have hnil : ∀ s, (cell.gap s).trimEnd = [] := fun s =>
      trimEnd_of_blank ((cell.even h).blank s)
    exact ⟨fun s => by rw [hnil s]; exact blank_nil, .inl hnil⟩

/-- The cell with more blanks behind it. Behind `by` they do not make a difference between the
indices. -/
def pad (cell : Cell σ) (gap : σ → Text) (hblank : ∀ s, (gap s).Blank)
    (heven : cell.lexeme.text.toLowerAscii = ['b', 'y'] →
      (∀ s, gap s = []) ∨ ∀ s, cell.gap s ++ gap s ≠ []) : Cell σ where
  lexeme := cell.lexeme
  gap s := cell.gap s ++ gap s
  filler s := (cell.filler s).append (filler_of_blank (hblank s))
  named := cell.named
  number h s := (cell.number h s).append (hblank s)
  even h := by
    refine ⟨fun s => ((cell.even h).blank s).append (hblank s), ?_⟩
    rcases heven h with hnil | hne
    · exact (cell.even h).empty.imp (fun hall s => by rw [hall s, hnil s]; rfl)
        fun hall s => by rw [hnil s, append_nil]; exact hall s
    · exact .inr hne

end Cell

/-! ## Rows -/

/-- Cells one after another : at every index a text, and always with the same lexemes. -/
abbrev Row (σ : Type) := List (Cell σ)

namespace Row

variable {σ : Type}

/-- The lexemes with the fillers at an index. -/
def strand (s : σ) (row : Row σ) : Strand :=
  row.map fun cell => (cell.lexeme, cell.gap s)

/-- The text of a row at an index. -/
def text (s : σ) (row : Row σ) : Text :=
  Strand.text (strand s row)

/-- The tokens of a row that stands at the offset. -/
def tokens (s : σ) (offset : Nat) (row : Row σ) : List Token :=
  Strand.tokens offset (strand s row)

/-- The keys of the tokens of a row. -/
def keys (row : Row σ) : List (Text × Bool) :=
  row.flatMap fun cell => cell.lexeme.keys

/-- At every index a filler stands between the cells, or else they do not run together. -/
def Beside (a b : Cell σ) : Prop :=
  ∀ s, a.gap s ≠ [] ∨ Apart a.lexeme.text b.lexeme.text

/-- No two neighbours of the row run together. -/
def Legible (row : Row σ) : Prop :=
  row.IsChain Beside

@[simp]
theorem text_nil (s : σ) : text s [] = [] :=
  rfl

@[simp]
theorem text_cons (s : σ) (cell : Cell σ) (row : Row σ) :
    text s (cell :: row) = cell.lexeme.text ++ (cell.gap s ++ text s row) :=
  rfl

@[simp]
theorem text_append (s : σ) (a b : Row σ) : text s (a ++ b) = text s a ++ text s b := by
  induction a with
  | nil => rfl
  | cons cell a ih => simp [ih]

theorem tokens_cons (s : σ) (offset : Nat) (cell : Cell σ) (row : Row σ) :
    tokens s offset (cell :: row) = cell.lexeme.tokens offset ++
      tokens s (offset + (cell.lexeme.text ++ cell.gap s).byteSize) row := by
  rw [byteSize_append, ← Nat.add_assoc]
  rfl

theorem tokens_append (s : σ) (offset : Nat) (a b : Row σ) :
    tokens s offset (a ++ b) = tokens s offset a ++ tokens s (offset + (text s a).byteSize) b := by
  induction a generalizing offset with
  | nil => rfl
  | cons cell a ih =>
    rw [cons_append, tokens_cons, tokens_cons, ih, append_assoc, Nat.add_assoc,
      ← byteSize_append, text_cons, append_assoc]

@[simp]
theorem keys_nil : keys ([] : Row σ) = [] :=
  rfl

@[simp]
theorem keys_cons (cell : Cell σ) (row : Row σ) :
    keys (cell :: row) = cell.lexeme.keys ++ keys row :=
  rfl

@[simp]
theorem keys_append (a b : Row σ) : keys (a ++ b) = keys a ++ keys b :=
  flatMap_append

theorem map_key_tokens (s : σ) (offset : Nat) (row : Row σ) :
    (tokens s offset row).map key = keys row := by
  rw [tokens, Strand.map_key_tokens, strand, flatMap_map]
  rfl

theorem length_tokens (s : σ) (offset : Nat) (row : Row σ) :
    (tokens s offset row).length = (keys row).length := by
  rw [← map_key_tokens s offset, length_map]

theorem Legible.strand {row : Row σ} (h : Legible row) (s : σ) : (strand s row).Legible where
  filler := by
    intro part hmem
    obtain ⟨cell, -, rfl⟩ := mem_map.1 hmem
    exact cell.filler s
  apart := (isChain_map _).2 (h.imp fun _ _ hbeside => hbeside s)

/-- The tokens of a legible row behind a filler. -/
theorem tokens_text {row : Row σ} (h : Legible row) (s : σ) {lead : Text} (hlead : Heading lead) :
    SqlScript.tokens (lead ++ text s row) = tokens s lead.byteSize row := by
  have hscan := tokens_scanFrom_heading 0 hlead (text s row)
  rw [Nat.zero_add, text, Strand.tokens_scanFrom _ (h.strand s)] at hscan
  exact hscan

theorem tokens_text_zero {row : Row σ} (h : Legible row) (s : σ) :
    SqlScript.tokens (text s row) = tokens s 0 row :=
  tokens_text h s .nil

/-- The tokens of a legible row, up to their places, are the same at every index. -/
theorem map_key_tokens_text {row : Row σ} (h : Legible row) (s : σ) {lead : Text}
    (hlead : Heading lead) : (SqlScript.tokens (lead ++ text s row)).map key = keys row := by
  rw [tokens_text h s hlead, map_key_tokens]

/-! ## Changing the last cell -/

/-- The row with another last cell. -/
def mapLast (f : Cell σ → Cell σ) : Row σ → Row σ
  | [] => []
  | [cell] => [f cell]
  | cell :: next :: row => cell :: mapLast f (next :: row)

@[simp]
theorem mapLast_concat (f : Cell σ → Cell σ) (row : Row σ) (cell : Cell σ) :
    mapLast f (row ++ [cell]) = row ++ [f cell] := by
  induction row with
  | nil => rfl
  | cons first row ih =>
    cases row with
    | nil => rfl
    | cons next row => exact congrArg (first :: ·) ih

theorem map_lexeme_mapLast {f : Cell σ → Cell σ} (hf : ∀ cell, (f cell).lexeme = cell.lexeme)
    (row : Row σ) : (mapLast f row).map Cell.lexeme = row.map Cell.lexeme := by
  rcases eq_nil_or_concat row with rfl | ⟨init, cell, rfl⟩
  · rfl
  · simp [hf]

theorem Legible.mapLast {f : Cell σ → Cell σ} (hf : ∀ cell, (f cell).lexeme = cell.lexeme)
    {row : Row σ} (h : Legible row) : Legible (mapLast f row) := by
  rcases eq_nil_or_concat row with rfl | ⟨init, cell, rfl⟩
  · exact h
  · simp only [concat_eq_append, mapLast_concat] at h ⊢
    refine isChain_append.2 ⟨(isChain_append.1 h).1, isChain_singleton _, ?_⟩
    intro last hlast first hfirst
    cases hfirst
    intro s
    rw [hf]
    exact (isChain_append.1 h).2.2 last hlast cell rfl s

/-- The row without blanks at its end. -/
def trimEnd (row : Row σ) : Row σ :=
  mapLast Cell.trimEnd row

theorem keys_trimEnd (row : Row σ) : keys (trimEnd row) = keys row := by
  have hkeys : ∀ row : Row σ, keys row = (row.map Cell.lexeme).flatMap Lexeme.keys := fun row => by
    rw [flatMap_map]
    rfl
  rw [hkeys, trimEnd, map_lexeme_mapLast (f := Cell.trimEnd) (fun _ => rfl), ← hkeys]

theorem text_trimEnd (s : σ) (row : Row σ) : text s (trimEnd row) = (text s row).trimEnd := by
  rcases eq_nil_or_concat row with rfl | ⟨init, cell, rfl⟩
  · rfl
  · rw [concat_eq_append, trimEnd, mapLast_concat, text_append, text_append]
    obtain ⟨rest, c, hrest, hc⟩ := cell.lexeme.solid.last
    have htrim := trimEnd_append_cons (text s init ++ rest) hc (cell.gap s)
    simpa [Cell.trimEnd, hrest] using htrim.symm

/-- A row starts with no blank. -/
theorem trimStart_text (s : σ) (row : Row σ) : (text s row).trimStart = text s row := by
  cases row with
  | nil => rfl
  | cons cell row => exact trimStart_append blank_nil cell.lexeme.solid _

theorem text_trim (s : σ) (row : Row σ) : text s (trimEnd row) = (text s row).trim := by
  rw [Text.trim, trimStart_text, text_trimEnd]

end Row

end Layout

end SqlScript
