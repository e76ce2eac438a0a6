import Mathlib.Data.List.Chain
import SqlScript.Proofs.Scanning

/-!
# Reading written lexemes

A lexeme is a word, a symbol or a quoted literal, and it is written after some blanks
(`Layout.Written`). Lexemes may be written without blanks between them where they do not run
together : two words would make one word, and two dashes or a slash and an asterisk would open a
comment (`Layout.fuses`).

Lexemes that are separated in this sense are read back one by one : the tokens of the printed text
are the tokens of each lexeme at its place (`Layout.tokens_print`). A word or a symbol is one token;
a literal is its two marks, with tokens between them none of which is the mark
(`Layout.exists_tokens_literal`).
-/

namespace SqlScript

open List Token Text

variable {a b t : Text}

namespace Layout

/-! ## Lexemes -/

/-- A run of word characters. -/
structure Word where
  text : Text
  ne_nil : text ≠ []
  chars : text.all isWordChar = true

/-- A character that is neither a blank nor part of a word, and no quote mark. -/
structure Symbol where
  char : Char
  word : isWordChar char = false
  blank : isBlank char = false
  quote : isQuoteMark char = false

/-- Any text between two quote marks that do not occur in it. -/
structure Literal where
  mark : Char
  content : Text
  quote : isQuoteMark mark = true
  closed : mark ∉ content

/-- What is written without blanks around it. -/
inductive Lexeme where
  | word (w : Word)
  | symbol (s : Symbol)
  | literal (l : Literal)

/-- The characters of a lexeme, a literal with its marks. -/
def Lexeme.text : Lexeme → Text
  | word w => w.text
  | symbol s => [s.char]
  | literal l => l.mark :: (l.content ++ [l.mark])

/-- Something that is written after some blanks. -/
structure Written (α : Type) where
  gap : Text
  blank : gap.Blank
  token : α

/-- Something else after the same blanks. -/
def Written.map {α β : Type} (f : α → β) (w : Written α) : Written β :=
  ⟨w.gap, w.blank, f w.token⟩

/-- The text of lexemes, each after its blanks. -/
def print : List (Written Lexeme) → Text
  | [] => []
  | w :: ws => w.gap ++ (w.token.text ++ print ws)

/-- Whether two characters are read together when nothing stands between them. -/
def fuses (a b : Char) : Bool :=
  (isWordChar a && isWordChar b) || (a == '-' && b == '-') || (a == '/' && b == '*')

/-- The text does not run together with what follows it. -/
def Apart (a b : Text) : Prop :=
  (a.getLast?.any fun x => b.head?.any (fuses x)) = false

instance (a b : Text) : Decidable (Apart a b) :=
  inferInstanceAs (Decidable (_ = false))

/-- Blanks stand between the lexemes, or else they do not run together. -/
def Separate (a b : Written Lexeme) : Prop :=
  b.gap ≠ [] ∨ Apart a.token.text b.token.text

instance : DecidableRel Separate :=
  fun a b => inferInstanceAs (Decidable (b.gap ≠ [] ∨ Apart a.token.text b.token.text))

/-! ## What may follow a lexeme -/

theorem apart_iff :
    Apart a b ↔ ∀ x, a.getLast? = some x → ∀ y, b.head? = some y → fuses x y = false := by
  unfold Apart
  cases a.getLast? <;> cases b.head? <;> simp

theorem fuses_of_isBlank {a b : Char} (h : isBlank b) : fuses a b = false := by
  have hdash : b ≠ '-' := by
    rintro rfl
    exact absurd h (by decide)
  have hstar : b ≠ '*' := by
    rintro rfl
    exact absurd h (by decide)
  simp [fuses, isWordChar_of_isBlank h, hdash, hstar]

theorem fuses_of_isWordChar_left {x : Char} (h : isWordChar x) (y : Char) :
    fuses x y = isWordChar y := by
  have hdash : x ≠ '-' := by rintro rfl; exact absurd h (by decide)
  have hslash : x ≠ '/' := by rintro rfl; exact absurd h (by decide)
  rw [fuses, h, beq_false_of_ne hdash, beq_false_of_ne hslash]
  simp

theorem fuses_of_isWordChar_right (x : Char) {y : Char} (h : isWordChar y) :
    fuses x y = isWordChar x := by
  have hdash : y ≠ '-' := by rintro rfl; exact absurd h (by decide)
  have hstar : y ≠ '*' := by rintro rfl; exact absurd h (by decide)
  rw [fuses, h, beq_false_of_ne hdash, beq_false_of_ne hstar]
  simp

/-- A text of blanks runs together with nothing. -/
theorem apart_of_blank (a : Text) (h : b.Blank) : Apart a b := by
  refine apart_iff.2 fun x _ y hy => ?_
  exact fuses_of_isBlank (h y (mem_of_head? hy))

theorem apart_append {c : Text} (h : b.Blank) (hb : b ≠ [] ∨ Apart a c) : Apart a (b ++ c) := by
  cases b with
  | nil => exact hb.resolve_left (by simp)
  | cons d b =>
    refine apart_iff.2 fun x _ y hy => ?_
    obtain rfl : d = y := by simpa using hy
    exact fuses_of_isBlank (h d mem_cons_self)

theorem Lexeme.text_ne_nil (lexeme : Lexeme) : lexeme.text ≠ [] := by
  cases lexeme with
  | word w => exact w.ne_nil
  | symbol s => exact cons_ne_nil _ _
  | literal l => exact cons_ne_nil _ _

theorem apart_append_of_ne_nil (hb : b ≠ []) (h : Apart a b) (c : Text) : Apart a (b ++ c) := by
  obtain ⟨d, b, rfl⟩ := exists_cons_of_ne_nil hb
  exact h

theorem Apart.of_append {c : Text} (hb : b ≠ []) (h : Apart a (b ++ c)) : Apart a b := by
  obtain ⟨d, b, rfl⟩ := exists_cons_of_ne_nil hb
  exact h

/-- No comment opens with a symbol that stays apart from what follows. -/
theorem splitComment?_of_apart {c : Char} (h : Apart [c] t) : splitComment? (c :: t) = none := by
  have hfuses : ∀ y, t.head? = some y → fuses c y = false := apart_iff.1 h c rfl
  unfold splitComment?
  split
  · rename_i heq
    cases heq
    exact absurd (hfuses '-' rfl) (by decide)
  · rename_i heq
    cases heq
    exact absurd (hfuses '*' rfl) (by decide)
  · rfl

/-! ## The tokens of a lexeme -/

/-- The tokens of a lexeme that stands at the offset. -/
def Lexeme.tokens (offset : Nat) (lexeme : Lexeme) : List Token :=
  (scanFrom offset none lexeme.text).tokens

theorem tokens_scanFrom_word (offset : Nat) (w : Word) (h : Apart w.text t) :
    (scanFrom offset none (w.text ++ t)).tokens =
      ⟨offset, offset + w.text.byteSize, w.text, false⟩ ::
        (scanFrom (offset + w.text.byteSize) none t).tokens := by
  have hhead : t.head?.any isWordChar = false := by
    cases hy : t.head? with
    | none => rfl
    | some y =>
      have hlast := getLast?_eq_some_getLast w.ne_nil
      have hword := all_eq_true.1 w.chars _ (getLast_mem w.ne_nil)
      have hfuses := apart_iff.1 h _ hlast y hy
      rwa [fuses_of_isWordChar_left hword] at hfuses
  exact tokens_scanFrom offset none (piece?_eq_word_iff.2
    ⟨rfl, w.ne_nil, all_eq_true.1 w.chars, hhead⟩)

theorem tokens_scanFrom_symbol (offset : Nat) (s : Symbol) (h : Apart [s.char] t) :
    (scanFrom offset none (s.char :: t)).tokens =
      ⟨offset, offset + s.char.utf8Size, [s.char], false⟩ ::
        (scanFrom (offset + s.char.utf8Size) none t).tokens := by
  have hpiece : piece? false (s.char :: t) = some (.symbol s.char, t) :=
    piece?_eq_symbol_iff.2 ⟨rfl, s.word, s.blank, .inr (splitComment?_of_apart h)⟩
  have hquote : quoteAfter none offset s.char = none := by simp [quoteAfter, s.quote]
  rw [tokens_scanFrom offset none hpiece, Piece.quoteAfter, hquote]
  rfl

theorem apart_nil (a : Text) : Apart a [] := by
  simp [Apart]

theorem Lexeme.tokens_word (offset : Nat) (w : Word) :
    (Lexeme.word w).tokens offset = [⟨offset, offset + w.text.byteSize, w.text, false⟩] := by
  have htokens := tokens_scanFrom_word offset w (apart_nil w.text)
  rwa [append_nil, tokens_scanFrom_nil] at htokens

theorem Lexeme.tokens_symbol (offset : Nat) (s : Symbol) :
    (Lexeme.symbol s).tokens offset = [⟨offset, offset + s.char.utf8Size, [s.char], false⟩] := by
  have htokens := tokens_scanFrom_symbol offset s (apart_nil [s.char])
  rwa [tokens_scanFrom_nil] at htokens

/-- Inside a literal the first piece ends before the mark, and is not the mark. -/
theorem exists_piece_inside {mark : Char} (hmark : isQuoteMark mark) {content : Text}
    (hne : content ≠ []) (hclosed : mark ∉ content) : ∃ piece rest,
      content = piece.text ++ rest ∧ piece.text ≠ [mark] ∧
      (∀ offset place, piece.quoteAfter offset (some ⟨mark, place⟩) = some ⟨mark, place⟩) ∧
      ∀ t, piece? true (content ++ mark :: t) = some (piece, rest ++ mark :: t) := by
  obtain ⟨c, rest, rfl⟩ := exists_cons_of_ne_nil hne
  have hc : c ≠ mark := fun hc => hclosed (by simp [hc])
  cases hword : isWordChar c with
  | true =>
    have hrun : ∀ d ∈ c :: rest.takeWhile isWordChar, isWordChar d :=
      forall_mem_cons.2 ⟨hword, all_eq_true.1 all_takeWhile⟩
    refine ⟨.word (c :: rest.takeWhile isWordChar), rest.dropWhile isWordChar, ?_, ?_,
      fun _ _ => rfl, fun t => piece?_eq_word_iff.2 ⟨?_, by simp, hrun, ?_⟩⟩
    · simp [Piece.text]
    · simp [Piece.text, hc]
    · rw [cons_append, cons_append, ← append_assoc, takeWhile_append_dropWhile]
    · cases hdrop : rest.dropWhile isWordChar with
      | nil => simpa using isWordChar_of_isQuoteMark hmark
      | cons d rest' =>
        have hd := head?_dropWhile_not isWordChar rest
        rw [hdrop] at hd
        simpa using hd
  | false =>
    cases hblank : isBlank c with
    | true =>
      exact ⟨.blank c, rest, rfl, by simpa [Piece.text] using hc, fun _ _ => rfl,
        fun t => piece?_eq_blank_iff.2 ⟨rfl, hblank⟩⟩
    | false =>
      refine ⟨.symbol c, rest, rfl, by simpa [Piece.text] using hc, fun offset place => ?_,
        fun t => piece?_eq_symbol_iff.2 ⟨rfl, hword, hblank, .inl rfl⟩⟩
      simp [Piece.quoteAfter, quoteAfter, hc]

theorem text_of_mem_tokens {piece : Piece} {offset : Nat} {quote : Option OpenQuote} {token : Token}
    (h : token ∈ piece.tokens offset quote) : token.text = piece.text := by
  cases piece with
  | word run => rw [mem_singleton.1 h]; rfl
  | symbol c => rw [mem_singleton.1 h]; rfl
  | blank c => simp [Piece.tokens] at h
  | comment body => simp [Piece.tokens] at h

/-- An open literal runs to its mark, whatever follows that. -/
theorem exists_tokens_inside {mark : Char} (hmark : isQuoteMark mark) (content : Text)
    (hclosed : mark ∉ content) (offset place : Nat) : ∃ inside : List Token,
      (∀ token ∈ inside, token.text ≠ [mark]) ∧ ∀ t,
      (scanFrom offset (some ⟨mark, place⟩) (content ++ mark :: t)).tokens =
        inside ++ ⟨offset + content.byteSize, offset + content.byteSize + mark.utf8Size, [mark],
          true⟩ :: (scanFrom (offset + content.byteSize + mark.utf8Size) none t).tokens := by
  -- by induction on the length of the content, since a piece may be of any length
  induction hlength : content.length using Nat.strongRecOn generalizing content offset with
  | ind n ih =>
    subst hlength
    by_cases hne : content = []
    · subst hne
      refine ⟨[], by simp, fun t => ?_⟩
      have hpiece : piece? true (mark :: t) = some (.symbol mark, t) := by
        refine piece?_eq_symbol_iff.2 ⟨rfl, isWordChar_of_isQuoteMark hmark, ?_, .inl rfl⟩
        exact isBlank_of_isQuoteMark hmark
      have hquote : quoteAfter (some ⟨mark, place⟩) offset mark = none := by
        simp [quoteAfter]
      rw [nil_append, tokens_scanFrom offset (some ⟨mark, place⟩) hpiece, Piece.quoteAfter, hquote]
      rfl
    · obtain ⟨piece, rest, rfl, hpieceMark, hquote, hpiece⟩ :=
        exists_piece_inside hmark hne hclosed
      have hshort : rest.length < (piece.text ++ rest).length := by
        have := length_lt_of_piece? (hpiece [])
        simp only [length_append, length_cons] at this ⊢
        omega
      obtain ⟨inside, hinside, htokens⟩ := ih rest.length hshort rest
        (fun hmem => hclosed (mem_append_right _ hmem)) (offset + piece.text.byteSize) rfl
      refine ⟨piece.tokens offset (some ⟨mark, place⟩) ++ inside, ?_, fun t => ?_⟩
      · intro token hmem
        rcases mem_append.1 hmem with hmem | hmem
        · rw [text_of_mem_tokens hmem]
          exact hpieceMark
        · exact hinside token hmem
      · rw [tokens_scanFrom offset (some ⟨mark, place⟩) (hpiece t), hquote, htokens,
          byteSize_append, Nat.add_assoc offset, append_assoc]

/-- A literal is read as its marks and, between them, tokens that are not the mark. -/
theorem exists_scanFrom_literal (offset : Nat) (l : Literal) : ∃ inside : List Token,
    (∀ token ∈ inside, token.text ≠ [l.mark]) ∧ ∀ t,
    (scanFrom offset none ((Lexeme.literal l).text ++ t)).tokens =
      ⟨offset, offset + l.mark.utf8Size, [l.mark], false⟩ :: (inside ++
        ⟨offset + l.mark.utf8Size + l.content.byteSize,
          offset + (Lexeme.literal l).text.byteSize, [l.mark], true⟩ ::
        (scanFrom (offset + (Lexeme.literal l).text.byteSize) none t).tokens) := by
  obtain ⟨inside, hinside, htokens⟩ := exists_tokens_inside l.quote l.content l.closed
    (offset + l.mark.utf8Size) offset
  refine ⟨inside, hinside, fun t => ?_⟩
  have hpiece : piece? false (l.mark :: (l.content ++ l.mark :: t)) =
      some (.symbol l.mark, l.content ++ l.mark :: t) := by
    refine piece?_eq_symbol_iff.2 ⟨rfl, isWordChar_of_isQuoteMark l.quote,
      isBlank_of_isQuoteMark l.quote, .inr ?_⟩
    exact splitComment?_of_isQuoteMark l.quote _
  have hquote : quoteAfter none offset l.mark = some ⟨l.mark, offset⟩ := by
    simp [quoteAfter, l.quote]
  have htext : (Lexeme.literal l).text ++ t = l.mark :: (l.content ++ l.mark :: t) := by
    simp [Lexeme.text]
  have hsize : offset + (Lexeme.literal l).text.byteSize =
      offset + l.mark.utf8Size + l.content.byteSize + l.mark.utf8Size := by
    simp only [Lexeme.text, byteSize_cons, byteSize_append, byteSize_nil]
    omega
  rw [htext, hsize, tokens_scanFrom offset none hpiece, Piece.quoteAfter, hquote]
  exact congrArg _ (htokens t)

theorem exists_tokens_literal (offset : Nat) (l : Literal) : ∃ inside : List Token,
    (∀ token ∈ inside, token.text ≠ [l.mark]) ∧ (Lexeme.literal l).tokens offset =
      ⟨offset, offset + l.mark.utf8Size, [l.mark], false⟩ :: (inside ++
        [⟨offset + l.mark.utf8Size + l.content.byteSize,
          offset + (Lexeme.literal l).text.byteSize, [l.mark], true⟩]) := by
  obtain ⟨inside, hinside, htokens⟩ := exists_scanFrom_literal offset l
  have halone := htokens []
  rw [append_nil, tokens_scanFrom_nil] at halone
  exact ⟨inside, hinside, halone⟩

/-- A lexeme is read the same, whatever follows that stays apart from it. -/
theorem tokens_scanFrom_append (offset : Nat) (lexeme : Lexeme)
    (h : Apart lexeme.text t) : (scanFrom offset none (lexeme.text ++ t)).tokens =
      lexeme.tokens offset ++ (scanFrom (offset + lexeme.text.byteSize) none t).tokens := by
  cases lexeme with
  | word w =>
    rw [Lexeme.tokens_word]
    exact tokens_scanFrom_word offset w h
  | symbol s =>
    rw [Lexeme.tokens_symbol]
    exact tokens_scanFrom_symbol offset s h
  | literal l =>
    obtain ⟨inside, -, htokens⟩ := exists_scanFrom_literal offset l
    have halone := htokens []
    rw [append_nil, tokens_scanFrom_nil] at halone
    rw [Lexeme.tokens, halone, htokens t]
    simp

/-! ## The tokens of a printed list -/

/-- The tokens of lexemes that are printed from the offset on. -/
def tokensAt (offset : Nat) : List (Written Lexeme) → List Token
  | [] => []
  | w :: ws => w.token.tokens (offset + w.gap.byteSize) ++
      tokensAt (offset + w.gap.byteSize + w.token.text.byteSize) ws

theorem tokens_scanFrom_blank (offset : Nat) {gap : Text} (h : gap.Blank) (t : Text) :
    (scanFrom offset none (gap ++ t)).tokens =
      (scanFrom (offset + gap.byteSize) none t).tokens := by
  induction gap generalizing offset with
  | nil => rfl
  | cons c gap ih =>
    rw [Blank, forall_mem_cons] at h
    have hpiece : piece? false (c :: (gap ++ t)) = some (.blank c, gap ++ t) :=
      piece?_eq_blank_iff.2 ⟨rfl, h.1⟩
    rw [cons_append, tokens_scanFrom offset none hpiece, byteSize_cons, ← Nat.add_assoc]
    exact ih (offset + c.utf8Size) h.2

theorem print_append (ws ws' : List (Written Lexeme)) :
    print (ws ++ ws') = print ws ++ print ws' := by
  induction ws with
  | nil => rfl
  | cons w ws ih => simp [print, ih]

theorem tokensAt_append (offset : Nat) (ws ws' : List (Written Lexeme)) :
    tokensAt offset (ws ++ ws') =
      tokensAt offset ws ++ tokensAt (offset + (print ws).byteSize) ws' := by
  induction ws generalizing offset with
  | nil => rfl
  | cons w ws ih =>
    have hsize : offset + w.gap.byteSize + w.token.text.byteSize + (print ws).byteSize =
        offset + (print (w :: ws)).byteSize := by
      simp only [print, byteSize_append]
      omega
    rw [cons_append, tokensAt, tokensAt, ih, hsize, append_assoc]

/-- Separate lexemes are read back one by one. -/
theorem tokens_print (offset : Nat) (ws : List (Written Lexeme)) (h : ws.IsChain Separate)
    {trail : Text} (htrail : trail.Blank) :
    (scanFrom offset none (print ws ++ trail)).tokens = tokensAt offset ws := by
  induction ws generalizing offset with
  | nil =>
    have hblank := tokens_scanFrom_blank offset htrail []
    rwa [append_nil, tokens_scanFrom_nil] at hblank
  | cons w ws ih =>
    have hapart : Apart w.token.text (print ws ++ trail) := by
      cases ws with
      | nil => exact apart_of_blank _ htrail
      | cons w' ws =>
        have hseparate := (isChain_cons_cons.1 h).1
        rw [print, append_assoc, append_assoc]
        exact apart_append w'.blank (hseparate.imp_right fun h =>
          apart_append_of_ne_nil w'.token.text_ne_nil h _)
    rw [print, append_assoc, append_assoc, tokens_scanFrom_blank offset w.blank,
      tokens_scanFrom_append _ _ hapart, ih _ h.tail]
    rfl

/-! ## Where a printed list lies -/

theorem Lexeme.head?_tokens (offset : Nat) (lexeme : Lexeme) :
    (lexeme.tokens offset).head?.map start = some offset := by
  cases lexeme with
  | word w => rw [tokens_word]; rfl
  | symbol s => rw [tokens_symbol]; rfl
  | literal l =>
    obtain ⟨inside, -, htokens⟩ := exists_tokens_literal offset l
    rw [htokens]
    rfl

theorem Lexeme.getLast?_tokens (offset : Nat) (lexeme : Lexeme) :
    (lexeme.tokens offset).getLast?.map stop = some (offset + lexeme.text.byteSize) := by
  cases lexeme with
  | word w => rw [tokens_word]; rfl
  | symbol s => rw [tokens_symbol]; rfl
  | literal l =>
    obtain ⟨inside, -, htokens⟩ := exists_tokens_literal offset l
    rw [htokens, ← cons_append, getLast?_concat]
    rfl

theorem Lexeme.tokens_ne_nil (offset : Nat) (lexeme : Lexeme) : lexeme.tokens offset ≠ [] := by
  intro hnil
  have hhead := lexeme.head?_tokens offset
  rw [hnil] at hhead
  simp at hhead

theorem head?_tokensAt (offset : Nat) (w : Written Lexeme) (ws : List (Written Lexeme)) :
    (tokensAt offset (w :: ws)).head?.map start = some (offset + w.gap.byteSize) := by
  rw [tokensAt, head?_append_of_ne_nil _ (w.token.tokens_ne_nil _), Lexeme.head?_tokens]

theorem getLast?_tokensAt (offset : Nat) {ws : List (Written Lexeme)} (h : ws ≠ []) :
    (tokensAt offset ws).getLast?.map stop = some (offset + (print ws).byteSize) := by
  obtain ⟨init, w, rfl⟩ := (eq_nil_or_concat ws).resolve_left h
  have hsize : offset + (print init).byteSize + w.gap.byteSize + w.token.text.byteSize =
      offset + (print (init ++ [w])).byteSize := by
    simp only [print_append, print, byteSize_append, byteSize_nil]
    omega
  rw [concat_eq_append, tokensAt_append, tokensAt, tokensAt, append_nil,
    getLast?_append_of_ne_nil _ (w.token.tokens_ne_nil _), Lexeme.getLast?_tokens, hsize]

/-- The text of lexemes, from the first one on. -/
def body : List (Written Lexeme) → Text
  | [] => []
  | w :: ws => w.token.text ++ print ws

end Layout

end SqlScript
