import SqlScript.Proofs.Folding
import SqlScript.Proofs.OpenLiteral
import SqlScript.Proofs.Stretch

/-!
# Texts that a blank keeps apart

A text whose last token ends where the text ends is read in the same way when a blank follows it :
a blank goes on with no word, completes no mark that opens a comment
(`splitComment?_append_blank`), and no comment is open. What follows is then read as it is read on
its own, only further on (`tokens_append_blank`).
-/

namespace SqlScript

open List

variable {b : Text}

theorem head?_isWordChar_of_blank (hb : b.head?.all isBlank) : b.head?.any isWordChar = false := by
  cases b with
  | nil => rfl
  | cons d b => exact isWordChar_of_isBlank hb

/-- A text that starts with no comment starts with none when a blank follows it. -/
theorem splitComment?_append_blank (hb : b.head?.all isBlank) {s : Text} (hs : s ≠ [])
    (h : splitComment? s = none) : splitComment? (s ++ b) = none := by
  have hne : ∀ c, isBlank c = false → b.head? ≠ some c := fun c hc hhead => by simp_all
  rw [← append_nil s] at h
  refine splitComment?_of_hint (hne '-' (by decide)) (hne '*' (by decide)) (fun s hhint => ?_)
        s hs h
  rwa [startsWithFolded_hint (head?_isWordChar_of_blank hb), ← append_nil s]

namespace Token

/-- Behind a text that a token ends a text is read from there on. -/
theorem tokens_scanFrom_append_blank (hb : b.head?.all isBlank) (offset : Nat)
    (quote : Option OpenQuote) (a : Text) (hend : a = [] ∨
      (scanFrom offset quote a).tokens.getLast?.map stop = some (offset + a.byteSize)) :
    (scanFrom offset quote (a ++ b)).tokens = (scanFrom offset quote a).tokens ++
      (scanFrom (offset + a.byteSize) (scanFrom offset quote a).openQuote b).tokens := by
  induction quote, a using piece_induction generalizing offset with
  | nil quote =>
    rw [scanFrom_nil]
    rfl
  | piece quote piece rest hpiece ih =>
    have hlast := hend.resolve_left
      (append_ne_nil_of_left_ne_nil (append_of_piece? hpiece).2 rest)
    rw [scanFrom_piece offset quote hpiece, getLast?_append, Text.byteSize_append,
      ← Nat.add_assoc] at hlast
    -- the last token is one of those behind the piece, or the piece itself
    have hrest : rest = [] ∨ (scanFrom (offset + piece.text.byteSize)
        (piece.quoteAfter offset quote) rest).tokens.getLast?.map stop =
          some (offset + piece.text.byteSize + rest.byteSize) := by
      rw [← hlast]
      cases hlater : (scanFrom (offset + piece.text.byteSize) (piece.quoteAfter offset quote)
        rest).tokens.getLast? with
      | some token => exact .inr rfl
      | none =>
        rw [hlater, Option.none_or] at hlast
        obtain ⟨token, hmem, hstop⟩ := Option.map_eq_some_iff.1 hlast
        rw [eq_of_mem_piece (mem_of_getLast? hmem)] at hstop
        exact .inl (Text.byteSize_eq_zero_iff.1 (by simpa using hstop))
    have hopen : ∀ body, piece = .comment body → rest ≠ [] := by
      rintro body rfl rfl
      simp [tokens_scanFrom_nil, Piece.tokens] at hlast
    have hpiece' : piece? quote.isSome (piece.text ++ (rest ++ b)) = some (piece, rest ++ b) := by
      refine piece?_of_rest hpiece hopen (fun _ _ hhead => ?_) fun c _ _ =>
        splitComment?_append_blank hb (cons_ne_nil c rest)
      cases rest with
      | nil => exact head?_isWordChar_of_blank hb
      | cons c rest => exact hhead
    rw [append_assoc, tokens_scanFrom _ _ hpiece', ih _ _ hrest,
      scanFrom_piece offset quote hpiece, append_assoc, Text.byteSize_append, Nat.add_assoc]

end Token

/-- A text that a blank keeps apart from another is read on its own, and so is the other. -/
theorem tokens_append_blank {a : Text} {run : List Token} (ha : tokenize a = .ok run)
    (hend : a = [] ∨ run.getLast?.map Token.stop = some a.byteSize)
    (hb : b.head?.all isBlank = true) :
    tokens (a ++ b) = run ++ (tokens b).map (Token.moved a.byteSize) := by
  have hscan : Token.scanFrom 0 none a = ⟨run, none⟩ := scan_of_tokenize ha
  have htokens := Token.tokens_scanFrom_append_blank hb 0 none a (by simpa [hscan] using hend)
  rw [hscan, Token.tokens_scanFrom_moved a.byteSize b rfl 0] at htokens
  exact htokens

/-- The front has a comment and a literal with dashes in it, the back a comment and an open
literal. -/
theorem tokens_append_blank_literal :
    let a : Text := "x --'\n= '--'".toList
    let b : Text := " --hint\n--'\n'y".toList
    tokenize a = .ok (tokens a) ∧ (tokens a).getLast?.map Token.stop = some a.byteSize ∧
      b.head?.all isBlank = true ∧
      tokens (a ++ b) = tokens a ++ (tokens b).map (Token.moved a.byteSize) := by
  have ha : tokenize "x --'\n= '--'".toList = .ok (tokens "x --'\n= '--'".toList) :=
    tokenize_of_foldl (by decide +kernel)
  exact ⟨ha, by decide +kernel, by decide,
    tokens_append_blank ha (.inr (by decide +kernel)) (by decide)⟩

end SqlScript
