import SqlScript.Proofs.Cutting
import SqlScript.Proofs.TokenPlace

/-!
# Reading a text piece by piece

The first piece of a text is told by its first characters : a blank, a comment, a run of word
characters that no word character follows, or else a symbol (`piece?_eq_blank_iff`,
`piece?_eq_comment_iff`, `piece?_eq_word_iff`, `piece?_eq_symbol_iff`). These are the only facts
about `piece?` that the rest needs, since no blank is a word character
(`isWordChar_of_isBlank`).

Each piece is one step of the scanner (`Token.tokens_scanFrom`). From the steps
follow two facts about all the tokens of a text : a token neither starts nor ends with a blank
(`solid_of_mem_tokens`), and its flag says whether a quoted literal is open
(`flagged_tokens`).
-/

namespace SqlScript

open List Option Text

variable {mark : Option Char} {quote : Option OpenQuote} {token : Token}

/-! ## Blanks and words -/

/-- The code points of the ranges. -/
def RangeTable.codes (table : RangeTable) : List Nat :=
  table.flatMap fun range => List.range' range.1 (range.2 + 1 - range.1)

theorem RangeTable.mem_codes {table : RangeTable} {n : Nat} (h : table.containsCode n) :
    n ∈ table.codes := by
  induction table with
  | nil => simp [containsCode] at h
  | cons range ranges ih =>
    simp only [containsCode] at h
    rw [codes, flatMap_cons, mem_append]
    split at h
    · simp at h
    · split at h
      · refine .inl ?_
        rw [mem_range'_1]
        omega
      · exact .inr (ih h)

variable {c : Char}

theorem isWordChar_of_isBlank (h : isBlank c) : isWordChar c = false := by
  have hcodes : ∀ n ∈ blankRanges.codes, isWordChar (Char.ofNat n) = false := by decide +kernel
  have hword := hcodes c.toNat (RangeTable.mem_codes h)
  rwa [Char.ofNat_toNat] at hword

theorem isBlank_of_isWordChar (h : isWordChar c) : isBlank c = false := by
  cases hblank : isBlank c with
  | false => rfl
  | true => simp [isWordChar_of_isBlank hblank] at h

theorem isWordChar_of_isQuoteMark (h : isQuoteMark c) : isWordChar c = false := by
  simp only [isQuoteMark, Bool.or_eq_true, beq_iff_eq] at h
  rcases h with rfl | rfl <;> decide +kernel

theorem isBlank_of_isQuoteMark (h : isQuoteMark c) : isBlank c = false := by
  simp only [isQuoteMark, Bool.or_eq_true, beq_iff_eq] at h
  rcases h with rfl | rfl <;> decide

/-- A capital letter becomes a small letter, and any other character stays. -/
theorem toLower_cases (c : Char) : c.toLower = c ∨
    (65 ≤ c.toNat ∧ c.toNat ≤ 90) ∧ c.toLower.toNat = c.toNat + 32 := by
  delta Char.toLower
  split
  · rename_i hc
    have hval : c.val.toNat = c.toNat := rfl
    simp only [UInt32.le_iff_toNat_le, ge_iff_le] at hc
    simp at hc
    refine .inr ⟨by omega, ?_⟩
    rw [Char.toNat, UInt32.toNat_add]
    simp
    omega
  · exact .inl rfl

theorem utf8Size_of_ascii (h : c.toNat < 128) : c.utf8Size = 1 :=
  Char.utf8Size_eq_one_iff.2 (UInt32.le_iff_toNat_le.2 (Nat.le_of_lt_succ h))

/-- Small letters are as long as capitals. -/
theorem utf8Size_toLower (c : Char) : c.toLower.utf8Size = c.utf8Size := by
  rcases toLower_cases c with h | ⟨hc, hlower⟩
  · rw [h]
  · rw [utf8Size_of_ascii (by omega), utf8Size_of_ascii (by omega)]

theorem byteSize_toLowerAscii (t : Text) : t.toLowerAscii.byteSize = t.byteSize := by
  induction t with
  | nil => rfl
  | cons c t ih => rw [byteSize_cons, ← ih, ← utf8Size_toLower]; rfl

theorem containsCode_of_lt {lo hi n : Nat} {table : RangeTable} (hlo : lo ≤ n) (hhi : n ≤ hi) :
    RangeTable.containsCode ((lo, hi) :: table) n := by
  rw [RangeTable.containsCode, if_neg (by omega), if_pos hhi]

/-- An ASCII letter is a word character. -/
theorem isWordChar_of_toNat
    (h : (65 ≤ c.toNat ∧ c.toNat ≤ 90) ∨ (97 ≤ c.toNat ∧ c.toNat ≤ 122)) : isWordChar c := by
  have hletter : isLetter c := by
    have htable : letterRanges = (65, 90) :: (97, 122) :: letterRanges.drop 2 := rfl
    rw [isLetter, RangeTable.contains, htable]
    rcases h with h | h
    · exact containsCode_of_lt h.1 h.2
    · rw [RangeTable.containsCode, if_neg (by omega), if_neg (by omega)]
      exact containsCode_of_lt h.1 h.2
  simp [isWordChar, isAlphanumeric, hletter]

theorem isWordChar_of_isDigit (h : c.isDigit) : isWordChar c := by
  rw [Char.isDigit_iff_toNat] at h
  have hnumeral : isNumeral c := by
    have htable : numeralRanges = (48, 57) :: numeralRanges.drop 1 := rfl
    rw [isNumeral, RangeTable.contains, htable]
    exact containsCode_of_lt h.1 h.2
  simp [isWordChar, isAlphanumeric, hnumeral]

theorem toLower_eq_self_of_isDigit (h : c.isDigit) : c.toLower = c := by
  obtain ⟨-, hle⟩ := Char.isDigit_iff_toNat.1 h
  have hnine : '9'.toNat = 57 := rfl
  exact (toLower_cases c).resolve_right fun hc => by omega

theorem isWordChar_toLower (c : Char) : isWordChar c.toLower = isWordChar c := by
  rcases toLower_cases c with h | ⟨hc, hlower⟩
  · rw [h]
  · rw [isWordChar_of_toNat (.inl hc), isWordChar_of_toNat (.inr (by omega))]

/-! ## The first piece of a text -/

/-- A comment opens with a dash or a slash. -/
theorem head_of_splitComment? {t : Text} {parts : Text × Text}
    (h : splitComment? (c :: t) = some parts) : c = '-' ∨ c = '/' := by
  unfold splitComment? at h
  split at h
  · rename_i heq
    exact .inl (List.cons.inj heq).1
  · rename_i heq
    exact .inr (List.cons.inj heq).1
  · simp at h

theorem isWordChar_of_splitComment? {t : Text} {parts : Text × Text}
    (h : splitComment? (c :: t) = some parts) : isWordChar c = false := by
  rcases head_of_splitComment? h with rfl | rfl <;> decide +kernel

theorem splitComment?_of_ne (hdash : c ≠ '-') (hslash : c ≠ '/') (t : Text) :
    splitComment? (c :: t) = none := by
  cases hcomment : splitComment? (c :: t) with
  | none => rfl
  | some parts =>
    rcases head_of_splitComment? hcomment with rfl | rfl
    · exact absurd rfl hdash
    · exact absurd rfl hslash

theorem splitComment?_of_isBlank (h : isBlank c) (t : Text) : splitComment? (c :: t) = none := by
  refine splitComment?_of_ne ?_ ?_ t <;> rintro rfl <;> simp [isBlank_eq_false] at h

theorem splitComment?_of_isQuoteMark (h : isQuoteMark c) (t : Text) :
    splitComment? (c :: t) = none := by
  refine splitComment?_of_ne ?_ ?_ t <;> rintro rfl <;> simp [isQuoteMark] at h

section Piece

variable {inQuotes : Bool} {t run body rest : Text} {c : Char}

/-- A word takes all the word characters up to the first other one. -/
theorem piece?_eq_word_iff : piece? inQuotes t = some (.word run, rest) ↔
    t = run ++ rest ∧ run ≠ [] ∧ (∀ c ∈ run, isWordChar c) ∧ rest.head?.any isWordChar = false := by
  constructor
  · intro h
    obtain ⟨htext, hne⟩ := append_of_piece? h
    cases t with
    | nil => simp [piece?] at h
    | cons c t =>
      simp only [piece?] at h
      split at h
      · rename_i hc
        cases h
        refine ⟨htext.symm, hne, forall_mem_cons.2 ⟨hc, ?_⟩, ?_⟩
        · exact List.all_eq_true.1 all_takeWhile
        · cases hdrop : t.dropWhile isWordChar with
          | nil => rfl
          | cons d rest =>
            have hd := head?_dropWhile_not isWordChar t
            rw [hdrop] at hd
            simpa using hd
      · split at h
        · simp at h
        · split at h <;> simp at h
  · rintro ⟨rfl, hne, hrun, hrest⟩
    obtain ⟨c, run, rfl⟩ := exists_cons_of_ne_nil hne
    rw [forall_mem_cons] at hrun
    have htake : (run ++ rest).takeWhile isWordChar = run := by
      rw [takeWhile_append_of_pos hrun.2]
      cases rest with
      | nil => simp
      | cons d rest => simp_all
    have hdrop : (run ++ rest).dropWhile isWordChar = rest := by
      rw [dropWhile_append_of_pos hrun.2]
      cases rest with
      | nil => simp
      | cons d rest => simp_all
    simp only [cons_append, piece?, hrun.1, if_true, htake, hdrop]

theorem piece?_eq_comment_iff : piece? inQuotes t = some (.comment body, rest) ↔
    inQuotes = false ∧ splitComment? t = some (body, rest) := by
  cases t with
  | nil => simp [piece?, splitComment?]
  | cons c t =>
    constructor
    · intro h
      simp only [piece?] at h
      split at h
      · simp at h
      · cases inQuotes with
        | true =>
          simp only [if_true] at h
          split at h <;> simp at h
        | false =>
          refine ⟨rfl, ?_⟩
          simp only [Bool.false_eq_true, if_false] at h
          split at h
          · rename_i hcomment
            rw [hcomment]
            simpa using h
          · split at h <;> simp at h
    · rintro ⟨rfl, hcomment⟩
      simp [piece?, isWordChar_of_splitComment? hcomment, hcomment]

theorem piece?_eq_blank_iff : piece? inQuotes t = some (.blank c, rest) ↔
    t = c :: rest ∧ isBlank c := by
  constructor
  · intro h
    refine ⟨(append_of_piece? h).1.symm, ?_⟩
    cases t with
    | nil => simp [piece?] at h
    | cons d t =>
      simp only [piece?] at h
      split at h
      · simp at h
      · split at h
        · simp at h
        · split at h
          · rename_i hblank
            simp only [Option.some.injEq, Prod.mk.injEq, Piece.blank.injEq] at h
            rwa [← h.1]
          · simp at h
  · rintro ⟨rfl, hblank⟩
    simp [piece?, isWordChar_of_isBlank hblank, splitComment?_of_isBlank hblank, hblank]

theorem piece?_eq_symbol_iff : piece? inQuotes t = some (.symbol c, rest) ↔
    t = c :: rest ∧ isWordChar c = false ∧ isBlank c = false ∧
      (inQuotes ∨ splitComment? t = none) := by
  constructor
  · intro h
    obtain rfl : t = c :: rest := (append_of_piece? h).1.symm
    simp only [piece?] at h
    split at h
    · simp at h
    · rename_i hword
      split at h
      · simp at h
      · rename_i hcomment
        split at h
        · simp at h
        · rename_i hblank
          refine ⟨rfl, by simpa using hword, by simpa using hblank, ?_⟩
          cases inQuotes with
          | true => exact .inl rfl
          | false => exact .inr (by simpa using hcomment)
  · rintro ⟨rfl, hword, hblank, hcomment⟩
    rcases hcomment with rfl | hcomment
    · simp [piece?, hword, hblank]
    · simp [piece?, hword, hblank, hcomment]

end Piece

/-! ## Tokens, flags and literals -/

namespace Token

theorem solid_of_mem_scanFrom (offset : Nat) (quote : Option OpenQuote) (t : Text) :
    ∀ token ∈ (scanFrom offset quote t).tokens, token.text.Solid := by
  fun_induction scanFrom offset quote t with
  | case1 => simp
  | case2 offset quote t rest run hpiece _ _ _ _ ih =>
    obtain ⟨-, hne, hrun, -⟩ := piece?_eq_word_iff.1 hpiece
    refine forall_mem_cons.2 ⟨?_, ih⟩
    exact solid_of_forall hne fun c hc => isBlank_of_isWordChar (hrun c hc)
  | case3 offset quote t rest c hpiece _ _ _ _ ih =>
    obtain ⟨-, -, hblank, -⟩ := piece?_eq_symbol_iff.1 hpiece
    exact forall_mem_cons.2 ⟨solid_singleton hblank, ih⟩
  | case4 _ _ _ _ _ _ _ _ ih => exact ih
  | case5 _ _ _ _ _ _ _ _ ih => exact ih

/-- The mark of the literal that is open after the token, when one with the given mark is open
before it. -/
def markAfter : Option Char → Token → Option Char
  | none, token => if token.isQuote then token.text.head? else none
  | some mark, token => if token.text = [mark] then none else some mark

/-- Each token is flagged just if a literal is open, when one with the given mark is open before
the first of them. -/
def Flagged : Option Char → List Token → Prop
  | _, [] => True
  | mark, token :: later => token.inQuotes = mark.isSome ∧ Flagged (markAfter mark token) later

theorem flagged_append {front back : List Token} :
    Flagged mark (front ++ back) ↔
      Flagged mark front ∧ Flagged (front.foldl markAfter mark) back := by
  induction front generalizing mark with
  | nil => simp [Flagged]
  | cons token front ih => simp [Flagged, ih, and_assoc]

theorem Flagged.of_append {front back : List Token}
    (h : Flagged mark (front ++ back)) : Flagged (front.foldl markAfter mark) back :=
  (flagged_append.1 h).2

/-- A literal stays open up to its mark. -/
theorem foldl_markAfter_inside {mark : Char} {inside : List Token}
    (h : ∀ token ∈ inside, token.text ≠ [mark]) :
    inside.foldl markAfter (some mark) = some mark := by
  induction inside with
  | nil => rfl
  | cons token inside ih =>
    rw [forall_mem_cons] at h
    rw [foldl_cons, markAfter, if_neg h.1, ih h.2]

/-- A word is no quote mark, so it opens and closes no literal. -/
theorem markAfter_word (hmark : ∀ c ∈ mark, isQuoteMark c)
    (hword : ∀ c ∈ token.text, isWordChar c) : markAfter mark token = mark := by
  have hne : ∀ c, isQuoteMark c → token.text ≠ [c] := by
    intro c hc htext
    have hchar := hword c (by simp [htext])
    simp [isWordChar_of_isQuoteMark hc] at hchar
  cases mark with
  | none =>
    have hquote : token.isQuote = false := by
      simp only [isQuote, Bool.or_eq_false_iff, beq_eq_false_iff_ne]
      exact ⟨hne _ (by decide), hne _ (by decide)⟩
    simp [markAfter, hquote]
  | some c => simp [markAfter, hne c (hmark c rfl)]

theorem markAfter_symbol (quote : Option OpenQuote) (offset : Nat) {c : Char}
    (htext : token.text = [c]) : markAfter (quote.map OpenQuote.mark) token =
      (quoteAfter quote offset c).map OpenQuote.mark := by
  cases quote with
  | none =>
    have hquote : token.isQuote = isQuoteMark c := by
      simp [isQuote, isQuoteMark, htext, Bool.beq_eq_decide_eq]
    simp only [map_none, markAfter, quoteAfter, hquote, htext]
    split <;> rfl
  | some opened =>
    simp only [map_some, markAfter, quoteAfter, htext]
    by_cases hc : c = opened.mark <;> simp [hc]

/-- Only quote marks open literals. -/
theorem isQuoteMark_of_quoteAfter
    (h : ∀ opened ∈ quote, isQuoteMark opened.mark) (offset : Nat) (c : Char) :
    ∀ opened ∈ quoteAfter quote offset c, isQuoteMark opened.mark := by
  intro opened hmem
  cases quote with
  | none =>
    simp only [quoteAfter] at hmem
    split at hmem
    · rename_i hc
      simp only [mem_def, Option.some.injEq] at hmem
      rwa [← hmem]
    · simp at hmem
  | some opened' =>
    simp only [quoteAfter] at hmem
    split at hmem
    · simp at hmem
    · exact h opened hmem

/-- A piece is a token, after which the literals are what its mark says, or none. -/
theorem piece_cases {t rest : Text} {piece : Piece} (h : piece? quote.isSome t = some (piece, rest))
    (hquote : ∀ opened ∈ quote, isQuoteMark opened.mark) (offset : Nat) :
    (piece.tokens offset quote = [] ∧ piece.quoteAfter offset quote = quote) ∨
      ∃ token, piece.tokens offset quote = [token] ∧ token.start = offset ∧
        token.stop = offset + piece.text.byteSize ∧
        markAfter (quote.map OpenQuote.mark) token =
          (piece.quoteAfter offset quote).map OpenQuote.mark := by
  cases piece with
  | word run =>
    refine .inr ⟨_, rfl, rfl, rfl, markAfter_word ?_ (piece?_eq_word_iff.1 h).2.2.1⟩
    intro c hc
    obtain ⟨opened, hopened, rfl⟩ := map_eq_some_iff.1 hc
    exact hquote opened hopened
  | symbol c => exact .inr ⟨_, rfl, rfl, rfl, markAfter_symbol quote offset rfl⟩
  | blank c => exact .inl ⟨rfl, rfl⟩
  | comment body => exact .inl ⟨rfl, rfl⟩

end Token

/-- Only quote marks open literals. -/
theorem Piece.isQuoteMark_quoteAfter
    (h : ∀ opened ∈ quote, isQuoteMark opened.mark) (offset : Nat) (piece : Piece) :
    ∀ opened ∈ piece.quoteAfter offset quote, isQuoteMark opened.mark := by
  cases piece with
  | symbol c => exact Token.isQuoteMark_of_quoteAfter h offset c
  | _ => exact h

namespace Token

/-- The token of a piece opens and closes literals as the piece does. -/
theorem foldl_markAfter_piece {t rest : Text} {piece : Piece}
    (h : piece? quote.isSome t = some (piece, rest))
    (hquote : ∀ opened ∈ quote, isQuoteMark opened.mark) (offset : Nat) :
    (piece.tokens offset quote).foldl markAfter (quote.map OpenQuote.mark) =
      (piece.quoteAfter offset quote).map OpenQuote.mark := by
  rcases piece_cases h hquote offset with ⟨hnone, hsame⟩ | ⟨token, htoken, -, -, hmark⟩
  · rw [hnone, hsame]
    rfl
  · rw [htoken, ← hmark]
    rfl

theorem flagged_scanFrom (offset : Nat) (quote : Option OpenQuote) (t : Text)
    (h : ∀ opened ∈ quote, isQuoteMark opened.mark) :
    Flagged (quote.map OpenQuote.mark) (scanFrom offset quote t).tokens := by
  induction quote, t using piece_induction generalizing offset with
  | nil quote =>
    rw [tokens_scanFrom_nil]
    trivial
  | piece quote piece rest hpiece ih =>
    rw [tokens_scanFrom _ _ hpiece, flagged_append, foldl_markAfter_piece hpiece h]
    refine ⟨?_, ih _ _ (Piece.isQuoteMark_quoteAfter h offset piece)⟩
    cases piece <;> simp [Piece.tokens, Flagged]

end Token

theorem solid_of_mem_tokens {sql : Text} (h : token ∈ tokens sql) : token.text.Solid :=
  Token.solid_of_mem_scanFrom 0 none sql token h

theorem flagged_tokens (sql : Text) : Token.Flagged none (tokens sql) :=
  Token.flagged_scanFrom 0 none sql (by simp)

end SqlScript
