import Mathlib.Data.List.Forall2
import SqlScript.Proofs.Pieces

/-!
# Stretches of a text that are read on their own

A symbol like a bracket goes on with no word and no comment mark (`Divides`). Where such a symbol is
read as a token, what stands before it is read in the same way whatever follows it
(`Divides.delimits`).

A stretch of text that stands at two offsets is read into the same tokens, up to their places, if
the same literal is open before it (`Token.forall₂_shifted`), or if no comment can be read in it
(`CommentFree`), since an open literal matters to comments only.
-/

namespace SqlScript

open List Option

/-! ## Symbols that divide -/

/-- The character is no part of a word, nor of a mark that opens a comment after other
characters. -/
structure Divides (c : Char) : Prop where
  word : isWordChar c = false
  dash : c ≠ '-'
  star : c ≠ '*'

theorem divides_openBracket : Divides '[' :=
  ⟨by decide, by decide, by decide⟩

/-- A text goes on with a comment mark of what stands before it by its first character, or by the
word that keeps dashes from being a comment. -/
theorem splitComment?_of_hint {old new : Text} (hdash : new.head? ≠ some '-')
    (hstar : new.head? ≠ some '*')
    (hhint : ∀ s, Text.startsWithFolded (s ++ old) "hint".toList →
      Text.startsWithFolded (s ++ new) "hint".toList) (s : Text) (hs : s ≠ [])
    (h : splitComment? (s ++ old) = none) : splitComment? (s ++ new) = none := by
  obtain ⟨x, s, rfl⟩ := exists_cons_of_ne_nil hs
  by_cases hopens : x = '-' ∧ s.head? = some '-' ∨ x = '/' ∧ s.head? = some '*'
  · rcases hopens with ⟨rfl, hhead⟩ | ⟨rfl, hhead⟩
    · obtain ⟨s, rfl⟩ := head?_eq_some_iff.1 hhead
      rw [cons_append, cons_append, splitComment?_dashes_eq_none_iff] at h ⊢
      exact hhint s h
    · obtain ⟨s, rfl⟩ := head?_eq_some_iff.1 hhead
      exact absurd h (splitComment?_block_ne_none _)
  · -- the first two characters stand before the seam or at it, and open no comment
    rw [not_or] at hopens
    unfold splitComment?
    split
    · rename_i heq
      cases s with
      | nil => exact absurd (congrArg head? (cons.inj heq).2) hdash
      | cons y s => simp_all
    · rename_i heq
      cases s with
      | nil => exact absurd (congrArg head? (cons.inj heq).2) hstar
      | cons y s => simp_all
    · rfl

/-- Whether a piece ends before a dividing symbol does not depend on the symbol, nor on what follows
it. -/
theorem Divides.delimits {c d : Char} (hc : Divides c) (hd : Divides d) (old new : Text) :
    Delimits (c :: old) (d :: new) := by
  refine ⟨cons_ne_nil c old, fun _ => by simp [hd.word], splitComment?_of_hint
    (by simp [hd.dash]) (by simp [hd.star]) fun s h => ?_⟩
  have hold : (c :: old).head?.any isWordChar = false := hc.word
  have hnew : (d :: new).head?.any isWordChar = false := hd.word
  rwa [startsWithFolded_hint hnew, ← startsWithFolded_hint hold]

namespace Token

/-- A symbol that opens neither a literal nor a comment is read as a token. -/
theorem tokens_scanFrom_plain {c : Char} (hword : isWordChar c = false)
    (hblank : isBlank c = false) (hquote : Text.isQuoteMark c = false) (hdash : c ≠ '-')
    (hslash : c ≠ '/') (offset : Nat) (quote : Option OpenQuote)
    (hmarks : ∀ opened ∈ quote, Text.isQuoteMark opened.mark) (t : Text) :
    (scanFrom offset quote (c :: t)).tokens = ⟨offset, offset + c.utf8Size, [c], quote.isSome⟩ ::
      (scanFrom (offset + c.utf8Size) quote t).tokens := by
  have hpiece : piece? quote.isSome (c :: t) = some (.symbol c, t) :=
    piece?_eq_symbol_iff.2 ⟨rfl, hword, hblank, .inr (splitComment?_of_ne hdash hslash t)⟩
  have hafter : quoteAfter quote offset c = quote := by
    cases quote with
    | none => simp [quoteAfter, hquote]
    | some opened =>
      have hne : c ≠ opened.mark := by
        rintro rfl
        simp [hmarks opened rfl] at hquote
      simp [quoteAfter, hne]
  rw [tokens_scanFrom _ _ hpiece, Piece.quoteAfter, hafter]
  rfl

/-! ## The same text at two places -/

/-- The tokens have one text, and lie equally far from the offsets `k` and `k'`. -/
structure Shifted (k k' : Nat) (a b : Token) : Prop where
  text : a.text = b.text
  le : k ≤ a.start
  start_le : a.start ≤ a.stop
  start : a.start + k' = b.start + k
  stop : a.stop + k' = b.stop + k

end Token

/-- No comment can be read anywhere in the text. -/
def CommentFree (t : Text) : Prop :=
  ∀ before body rest, t = before ++ (body ++ rest) → ¬ IsComment body rest

theorem CommentFree.splitComment?_eq_none {t : Text} (h : CommentFree t) :
    splitComment? t = none := by
  rw [eq_none_iff_forall_ne_some]
  rintro ⟨body, rest⟩ hsplit
  obtain ⟨htext, hcomment⟩ := splitComment?_eq_some_iff.1 hsplit
  exact h [] body rest htext hcomment

theorem commentFree_of_notMem {t : Text} (hdash : '-' ∉ t) (hslash : '/' ∉ t) : CommentFree t := by
  rintro before body rest rfl hcomment
  cases hcomment <;> simp at hdash hslash

theorem CommentFree.of_append {a t : Text} (h : CommentFree (a ++ t)) : CommentFree t := by
  intro before body rest htext
  exact h (a ++ before) body rest (by rw [htext, append_assoc])

theorem piece?_of_splitComment?_eq_none {t : Text} (h : splitComment? t = none) (q q' : Bool) :
    piece? q t = piece? q' t := by
  cases t with
  | nil => rfl
  | cons c t => cases q <;> cases q' <;> simp [piece?, h]

namespace Token

/-- The mark of the literal that is open after a piece depends on the one open before it only. -/
theorem map_quoteAfter {quote quote' : Option OpenQuote}
    (h : quote.map OpenQuote.mark = quote'.map OpenQuote.mark) (piece : Piece) (o o' : Nat) :
    (piece.quoteAfter o quote).map OpenQuote.mark =
      (piece.quoteAfter o' quote').map OpenQuote.mark := by
  rw [Piece.map_quoteAfter, Piece.map_quoteAfter, h]

/-! ## Tokens at another offset -/

/-- The token `k` bytes further on. -/
def moved (k : Nat) (token : Token) : Token :=
  { token with start := token.start + k, stop := token.stop + k }

theorem map_text_moved (k : Nat) (run : List Token) :
    (run.map (moved k)).map text = run.map text := by
  rw [List.map_map]
  rfl

/-- A text further on has the same tokens, moved. -/
theorem tokens_scanFrom_moved (k : Nat) (t : Text) {quote quote' : Option OpenQuote}
    (h : quote.map OpenQuote.mark = quote'.map OpenQuote.mark) (offset : Nat) :
    (scanFrom (offset + k) quote' t).tokens = (scanFrom offset quote t).tokens.map (moved k) := by
  induction quote, t using piece_induction generalizing quote' offset with
  | nil quote => simp [tokens_scanFrom_nil]
  | piece quote piece rest hpiece ih =>
    have hsome : quote.isSome = quote'.isSome := by
      rw [← isSome_map (f := OpenQuote.mark), h, isSome_map]
    have hlater := ih _ (map_quoteAfter h piece offset (offset + k)) (offset + piece.text.byteSize)
    have hfirst : piece.tokens (offset + k) quote' = (piece.tokens offset quote).map (moved k) := by
      cases piece <;> simp [Piece.tokens, moved, hsome, Nat.add_right_comm]
    rw [tokens_scanFrom _ _ hpiece, tokens_scanFrom _ _ (hsome ▸ hpiece), map_append, ← hlater,
      hfirst, Nat.add_right_comm]

/-- A text is read into the same tokens at two offsets, if the same literal is open before it or no
comment can be read in it. -/
theorem forall₂_shifted {k k' : Nat} (t : Text) (quote quote' : Option OpenQuote)
    (h : quote.map OpenQuote.mark = quote'.map OpenQuote.mark ∨ CommentFree t) {o o' : Nat}
    (hle : k ≤ o) (ho : o + k' = o' + k) :
    Forall₂ (Shifted k k') (scanFrom o quote t).tokens (scanFrom o' quote' t).tokens := by
  induction quote, t using piece_induction generalizing quote' o o' with
  | nil quote =>
    rw [tokens_scanFrom_nil, tokens_scanFrom_nil]
    exact .nil
  | piece quote piece rest hpiece ih =>
    have hsome : piece? quote.isSome (piece.text ++ rest) =
        piece? quote'.isSome (piece.text ++ rest) := by
      rcases h with h | h
      · rw [← isSome_map (f := OpenQuote.mark), h, isSome_map]
      · exact piece?_of_splitComment?_eq_none h.splitComment?_eq_none _ _
    rw [tokens_scanFrom o quote hpiece, tokens_scanFrom o' quote' (hsome.symm.trans hpiece)]
    have hafter : (piece.quoteAfter o quote).map OpenQuote.mark =
        (piece.quoteAfter o' quote').map OpenQuote.mark ∨ CommentFree rest := by
      rcases h with h | h
      · exact .inl (map_quoteAfter h piece o o')
      · exact .inr h.of_append
    have hlater := ih _ _ hafter (Nat.le_trans hle (Nat.le_add_right o piece.text.byteSize))
      (show o + piece.text.byteSize + k' = o' + piece.text.byteSize + k by omega)
    refine rel_append ?_ hlater
    cases piece with
    | word run => exact .cons ⟨rfl, hle, Nat.le_add_right _ _, ho, by simp only; omega⟩ .nil
    | symbol c => exact .cons ⟨rfl, hle, Nat.le_add_right _ _, ho, by simp only; omega⟩ .nil
    | blank c => exact .nil
    | comment body => exact .nil

end Token

end SqlScript
