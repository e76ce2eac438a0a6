import SqlScript.Proofs.Row

/-!
# Reading a text in small letters

A text whose ASCII capitals are made small is read as before : its pieces, and so its tokens, are
those of the text with their capitals made small (`tokens_toLowerAscii`), at the same places.
-/

namespace SqlScript

open List Text Token

/-! ## Characters -/

theorem toLower_eq_self_of_isWordChar_eq_false {c : Char} (h : isWordChar c = false) :
    c.toLower = c := by
  refine (toLower_cases c).resolve_right fun ⟨hc, _⟩ => ?_
  rw [isWordChar_of_toNat (.inl hc)] at h
  simp at h

theorem toLower_toLower (c : Char) : c.toLower.toLower = c.toLower := by
  rcases toLower_cases c with h | ⟨hc, hlower⟩
  · rw [h, h]
  · exact (toLower_cases c.toLower).resolve_right fun h => by omega

/-- A character that is no letter is the small form of itself alone. -/
theorem toLower_eq_iff {c d : Char} (h : isWordChar d = false) : c.toLower = d ↔ c = d := by
  constructor
  · rintro rfl
    rw [isWordChar_toLower] at h
    exact (toLower_eq_self_of_isWordChar_eq_false h).symm
  · rintro rfl
    exact toLower_eq_self_of_isWordChar_eq_false h

namespace Text

@[simp]
theorem toLowerAscii_nil : toLowerAscii [] = [] :=
  rfl

@[simp]
theorem toLowerAscii_cons (c : Char) (t : Text) :
    toLowerAscii (c :: t) = c.toLower :: toLowerAscii t :=
  rfl

@[simp]
theorem toLowerAscii_append (a b : Text) :
    toLowerAscii (a ++ b) = toLowerAscii a ++ toLowerAscii b :=
  map_append

theorem toLowerAscii_toLowerAscii (t : Text) : t.toLowerAscii.toLowerAscii = t.toLowerAscii := by
  rw [toLowerAscii, toLowerAscii, map_map]
  exact map_congr_left fun c _ => toLower_toLower c

theorem all_isWordChar_toLowerAscii (t : Text) :
    t.toLowerAscii.all isWordChar = t.all isWordChar := by
  simp only [toLowerAscii, all_map, Function.comp_def, isWordChar_toLower]

theorem stripFolded?_toLowerAscii (t lead : Text) :
    (stripFolded? t.toLowerAscii lead).isSome = (stripFolded? t lead).isSome := by
  simp only [stripFolded?]
  induction lead generalizing t with
  | nil => rfl
  | cons p lead ih =>
    cases t with
    | nil => rfl
    | cons c t =>
      have hidem : c.toLower.toLower = c.toLower := toLower_toLower c
      rw [toLowerAscii_cons, stripBy?, stripBy?, hidem]
      split
      · exact ih t
      · rfl

end Text

/-! ## Pieces -/

theorem splitComment?_eq_none_of_ne {c d : Char} (hline : ¬ (c = '-' ∧ d = '-'))
    (hblock : ¬ (c = '/' ∧ d = '*')) (t : Text) : splitComment? (c :: d :: t) = none := by
  unfold splitComment?
  split
  · rename_i heq
    simp_all
  · rename_i heq
    simp_all
  · rfl

theorem splitComment?_singleton (c : Char) : splitComment? [c] = none := by
  unfold splitComment?
  split <;> simp_all

/-- A comment stays one when its capitals are made small. -/
theorem IsComment.toLowerAscii {body rest : Text} (h : IsComment body rest) :
    IsComment body.toLowerAscii rest.toLowerAscii := by
  have hline : ∀ {s : Text}, '\n' ∉ s → '\n' ∉ s.toLowerAscii := by
    intro s hs hmem
    obtain ⟨c, hc, hlower⟩ := mem_map.1 hmem
    exact hs ((toLower_eq_iff (by decide)).1 hlower ▸ hc)
  have hhint : ∀ {s : Text}, s.startsWithFolded "hint".toList = false →
      s.toLowerAscii.startsWithFolded "hint".toList = false :=
    fun {s} hs => (stripFolded?_toLowerAscii s _).trans hs
  have hblock : ∀ {s : Text}, ¬ ['*', '/'] <:+: s → ¬ ['*', '/'] <:+: s.toLowerAscii := by
    intro s hs hinfix
    obtain ⟨part, hpart, heq⟩ := infix_map_iff.1 hinfix
    obtain ⟨star, part, rfl, hstar, hlater⟩ := map_eq_cons_iff.1 heq.symm
    obtain ⟨slash, rfl, hslash⟩ := map_eq_singleton_iff.1 hlater
    obtain rfl := (toLower_eq_iff (by decide)).1 hstar
    obtain rfl := (toLower_eq_iff (by decide)).1 hslash
    exact hs hpart
  cases h with
  | line rest hs hnone => simpa using IsComment.line _ (hline hs) (hhint hnone)
  | lastLine hs hnone => simpa using IsComment.lastLine (hline hs) (hhint hnone)
  | block rest hs => simpa using IsComment.block _ (hblock hs)
  | lastBlock hs => simpa using IsComment.lastBlock (hblock hs)

theorem splitComment?_toLowerAscii (t : Text) : splitComment? t.toLowerAscii =
    (splitComment? t).map (Prod.map toLowerAscii toLowerAscii) := by
  cases hsplit : splitComment? t with
  | some parts =>
    obtain ⟨rfl, hcomment⟩ := splitComment?_eq_some_iff.1 hsplit
    exact splitComment?_eq_some_iff.2 ⟨toLowerAscii_append _ _, hcomment.toLowerAscii⟩
  | none =>
    rcases t with _ | ⟨c, _ | ⟨d, t⟩⟩
    · rfl
    · exact splitComment?_singleton c.toLower
    · by_cases hline : c = '-' ∧ d = '-'
      · obtain ⟨rfl, rfl⟩ := hline
        rw [splitComment?_dashes_eq_none_iff] at hsplit
        exact splitComment?_dashes_eq_none_iff.2
          ((stripFolded?_toLowerAscii t _).trans hsplit)
      · refine splitComment?_eq_none_of_ne ?_ ?_ _
        · rwa [toLower_eq_iff (by decide), toLower_eq_iff (by decide)]
        · rw [toLower_eq_iff (by decide), toLower_eq_iff (by decide)]
          rintro ⟨rfl, rfl⟩
          exact splitComment?_block_ne_none t hsplit

/-- The piece with its ASCII capitals made small. -/
def Piece.toLowerAscii : Piece → Piece
  | word run => word run.toLowerAscii
  | symbol c => symbol c.toLower
  | blank c => blank c.toLower
  | comment body => comment body.toLowerAscii

theorem isBlank_toLower (c : Char) : isBlank c.toLower = isBlank c := by
  rcases toLower_cases c with h | ⟨hc, hlower⟩
  · rw [h]
  · rw [isBlank_eq_false (by omega) (by omega), isBlank_eq_false (by omega) (by omega)]

theorem piece?_toLowerAscii (inQuotes : Bool) (t : Text) : piece? inQuotes t.toLowerAscii =
    (piece? inQuotes t).map (Prod.map Piece.toLowerAscii toLowerAscii) := by
  cases t with
  | nil => rfl
  | cons c t =>
    have hword : (fun c : Char => isWordChar c.toLower) = isWordChar :=
      funext isWordChar_toLower
    have htake : (toLowerAscii t).takeWhile isWordChar =
        toLowerAscii (t.takeWhile isWordChar) := by
      simp [toLowerAscii, takeWhile_map, Function.comp_def, hword]
    have hdrop : (toLowerAscii t).dropWhile isWordChar =
        toLowerAscii (t.dropWhile isWordChar) := by
      simp [toLowerAscii, dropWhile_map, Function.comp_def, hword]
    have hcomment := splitComment?_toLowerAscii (c :: t)
    rw [toLowerAscii_cons] at hcomment ⊢
    rw [piece?, piece?, isWordChar_toLower, isBlank_toLower, htake, hdrop, hcomment]
    split
    · rfl
    · cases inQuotes with
      | true => simp only [if_true]; split <;> rfl
      | false =>
        simp only [Bool.false_eq_true, if_false]
        cases splitComment? (c :: t) with
        | some parts => rfl
        | none => simp only [Option.map_none]; split <;> rfl

/-! ## Tokens -/

theorem Piece.quoteAfter_toLowerAscii {inQuotes : Bool} {t rest : Text} {piece : Piece}
    (h : piece? inQuotes t = some (piece, rest)) (offset : Nat) (quote : Option OpenQuote) :
    piece.toLowerAscii.quoteAfter offset quote = piece.quoteAfter offset quote := by
  cases piece with
  | symbol c =>
    have hsame := toLower_eq_self_of_isWordChar_eq_false (piece?_eq_symbol_iff.1 h).2.1
    rw [toLowerAscii, hsame]
  | _ => rfl

/-- The token with its ASCII capitals made small. -/
def Token.small (token : Token) : Token :=
  { token with text := token.text.toLowerAscii }

/-- A text with its ASCII capitals made small has the tokens of the text with their capitals made
small. -/
theorem Token.scanFrom_toLowerAscii (t : Text) (quote : Option OpenQuote) (offset : Nat) :
    scanFrom offset quote t.toLowerAscii =
      ⟨(scanFrom offset quote t).tokens.map small,
        (scanFrom offset quote t).openQuote⟩ := by
  induction quote, t using piece_induction generalizing offset with
  | nil quote => simp [scanFrom_nil]
  | piece quote piece rest hpiece ih =>
    have hlower := piece?_toLowerAscii quote.isSome (piece.text ++ rest)
    rw [hpiece] at hlower
    have hsize : piece.toLowerAscii.text = piece.text.toLowerAscii := by cases piece <;> rfl
    rw [scanFrom_piece offset quote hlower, scanFrom_piece offset quote hpiece,
      Piece.quoteAfter_toLowerAscii hpiece, hsize, byteSize_toLowerAscii, ih, map_append]
    cases piece <;> simp [Piece.tokens, Piece.toLowerAscii, small, byteSize_toLowerAscii,
      utf8Size_toLower]

theorem tokens_toLowerAscii (t : Text) : tokens t.toLowerAscii = (tokens t).map Token.small :=
  congrArg Scan.tokens (Token.scanFrom_toLowerAscii t none 0)

theorem map_key_tokens_toLowerAscii (t : Text) : (tokens t.toLowerAscii).map key =
    ((tokens t).map key).map (Prod.map toLowerAscii id) := by
  rw [tokens_toLowerAscii, map_map, map_map]
  rfl

end SqlScript
