import SqlScript.Proofs.Bracket
import SqlScript.Proofs.Layout

/-!
# Quoted literals are opaque

A quoted literal may hold anything but its own quote mark : whatever stands in it, the script falls
into the same statements, and only the one with the literal differs, by what stands between the
marks (`Statement.split_quoted`). Unlike brackets, literals are known to the scanner as well, so
both the scanner and the splitter have to be outside of literals before the opening mark. No opening
bracket stands before it, and up to the first such bracket the splitter is in the literal that the
scanner is in (`Nesting.Tracks`); hence one of them says so of both.

From there on the two scripts run side by side. The scanner passes over the content in its own way
in each of them (`Layout.exists_scanFrom_literal`), the splitter takes no part in it
(`Nesting.passes_literal`), and behind the closing mark both are in the state in which they met the
opening one (`Statement.split_enclosed`).
-/

namespace SqlScript

variable {nesting : Nesting} {token : Token}

theorem divides_of_isQuoteMark {c : Char} (h : Text.isQuoteMark c) : Divides c := by
  simp only [Text.isQuoteMark, Bool.or_eq_true, beq_iff_eq] at h
  rcases h with rfl | rfl <;> exact ⟨by decide, by decide, by decide⟩

theorem Token.isQuote_iff : token.isQuote ↔ ∃ c, Text.isQuoteMark c ∧ token.text = [c] := by
  simp only [isQuote, Text.isQuoteMark, Bool.or_eq_true, beq_iff_eq]
  constructor
  · rintro (h | h)
    · exact ⟨'\'', .inl rfl, h⟩
    · exact ⟨'"', .inr rfl, h⟩
  · rintro ⟨c, rfl | rfl, h⟩
    · exact .inl h
    · exact .inr h

namespace Nesting

/-! ## The splitter and the scanner -/

/-- The splitter is in the literal with the mark, if in any, and in no bracketed identifier. -/
structure Tracks (nesting : Nesting) (mark : Option Char) : Prop where
  inBracket : nesting.inBracket = false
  quote : nesting.quote = mark.map ([·])

/-- A token other than an opening bracket leads both into the same literal. -/
theorem Tracks.after {mark : Option Char} (h : nesting.Tracks mark)
    (htoken : token.text ≠ ['[']) (next : Option Token) :
    (nesting.after token next).Tracks (Token.markAfter mark token) := by
  obtain ⟨blocks, lastClosed, quote, inBracket⟩ := nesting
  obtain ⟨rfl, rfl⟩ := h
  cases mark with
  | some mark =>
    by_cases hmark : token.text = [mark]
    · simp only [Nesting.after, Option.map_some, hmark, beq_self_eq_true, Token.markAfter]
      exact ⟨rfl, rfl⟩
    · simp only [Nesting.after, Option.map_some, beq_eq_false_iff_ne.2 hmark, Token.markAfter,
        hmark]
      exact ⟨rfl, rfl⟩
  | none =>
    by_cases hquote : token.isQuote
    · obtain ⟨c, -, hc⟩ := Token.isQuote_iff.1 hquote
      simp only [Nesting.after, Option.map_none, hquote, Token.markAfter, hc]
      exact ⟨rfl, rfl⟩
    · -- blocks are opened and closed, and nothing else happens
      simp only [Nesting.after, Option.map_none, hquote, beq_eq_false_iff_ne.2 htoken,
        Token.markAfter, Bool.false_eq_true, if_false]
      split
      · exact ⟨rfl, rfl⟩
      · split
        · exact ⟨rfl, rfl⟩
        · split
          · cases blocks <;> exact ⟨rfl, rfl⟩
          · exact ⟨rfl, rfl⟩

/-- Up to the first opening bracket the splitter is in the literal that the scanner is in. -/
theorem Tracks.through {mark : Option Char} (h : nesting.Tracks mark)
    {run : List Token} (hrun : ∀ token ∈ run, token.text ≠ ['[']) (next : Option Token) :
    (nesting.through run next).Tracks (run.foldl Token.markAfter mark) := by
  induction run generalizing nesting mark with
  | nil => exact h
  | cons token run ih =>
    rw [List.forall_mem_cons] at hrun
    exact ih (h.after hrun.1 _) hrun.2

/-- A literal is passed over, whatever stands in it. -/
theorem passes_literal (hplain : nesting.Plain) {mark : Char}
    (hmark : Text.isQuoteMark mark) {opening closing : Token} {inside : List Token}
    (hopening : opening.text = [mark]) (hinside : ∀ token ∈ inside, token.text ≠ [mark])
    (hclosing : closing.text = [mark]) (next : Option Token) :
    Passes nesting (opening :: (inside ++ [closing])) next nesting := by
  have hquote : opening.isQuote := Token.isQuote_iff.2 ⟨mark, hmark, hopening⟩
  refine passes_enclosed { nesting with quote := some [mark] } ?_ ?_ ?_ ?_ ?_ next
  · have hne : mark ≠ ';' := by
      rintro rfl
      exact absurd hmark (by decide)
    simp [isEnd, hopening, hne]
  · intro next
    simp [after, hplain.inBracket, hplain.quote, hquote, hopening]
  · simp [isEnd]
  · intro token hmem next
    simp [after, hplain.inBracket, hinside token hmem]
  · intro next
    rw [hplain.eq]
    simp [after, hclosing]

end Nesting

/-! ## The tokens around a literal -/

/-- The tokens before the mark that opens a literal are the same whatever follows it, and no literal
is open before it. -/
theorem exists_front_of_opening {p x : Text} {mark : Char} (hmark : Text.isQuoteMark mark)
    (hmem : token ∈ tokens (p ++ mark :: x)) (hstart : token.start = p.byteSize)
    (hopens : token.inQuotes = false) : ∃ front : List Token,
      (∀ token ∈ front, token.start ≤ p.byteSize ∧ token.stop ≤ p.byteSize) ∧
      (∀ token ∈ front, token.text ⊆ p) ∧ front.foldl Token.markAfter none = none ∧
      ∀ y, tokens (p ++ mark :: y) =
        front ++ (Token.scanFrom p.byteSize none (mark :: y)).tokens := by
  obtain ⟨front, after, htokens⟩ := List.append_of_mem hmem
  have hlaid := laid_tokens (p ++ mark :: x)
  rw [htokens] at hlaid
  obtain ⟨pieces, mark', hcuts, rfl, hflag, -⟩ := exists_cuts_of_tokens htokens hstart
  obtain rfl : mark' = none := Option.not_isSome_iff_eq_none.1 (by simp [← hflag, hopens])
  refine ⟨_, fun token hfront => hstart ▸ hlaid.le_of_mem_front hfront, fun token hmem => ?_,
    hcuts.foldl_markAfter rfl (by simp) _, fun y => ?_⟩
  · refine hcuts.subset_of_mem_texts _ ?_
    rw [← Piece.map_text_tokensFrom pieces (0) none]
    exact List.mem_map_of_mem hmem
  · have hdivides := divides_of_isQuoteMark hmark
    exact (hcuts.of_delimits (hdivides.delimits hdivides x y)).tokens_append

namespace Statement

/-- Two scripts that differ in a part which is passed over are split alike. -/
theorem split_enclosed (policy : TerminatorPolicy) {p x x' s : Text} {c : Char}
    (hc : isBlank c = false) {front inside inside' : List Token} {opening closing closing' : Token}
    (hfront : ∀ token ∈ front, token.start ≤ p.byteSize ∧ token.stop ≤ p.byteSize)
    (hstart : opening.start = p.byteSize)
    (htokens : tokens (p ++ (x ++ [c] ++ s)) = front ++ opening :: (inside ++ closing ::
      (Token.scanFrom (p ++ (x ++ [c])).byteSize none s).tokens))
    (htokens' : tokens (p ++ (x' ++ [c] ++ s)) = front ++ opening :: (inside' ++ closing' ::
      (Token.scanFrom (p ++ (x' ++ [c])).byteSize none s).tokens))
    (hpasses : ∀ next, (Nesting.through {} front (some opening)).Passes
      (opening :: (inside ++ [closing])) next (Nesting.through {} front (some opening)))
    (hpasses' : ∀ next, (Nesting.through {} front (some opening)).Passes
      (opening :: (inside' ++ [closing'])) next (Nesting.through {} front (some opening)))
    (htext : closing.text = closing'.text) (hstop : closing.stop = (p ++ (x ++ [c])).byteSize)
    (hstop' : closing'.stop = (p ++ (x' ++ [c])).byteSize) :
    ∃ before lead trail after, lead <:+ p ∧ trail <+: s ∧
      split policy (p ++ (x ++ [c] ++ s)) =
        .ok (before ++ (lead ++ (x ++ c :: trail)) :: after) ∧
      split policy (p ++ (x' ++ [c] ++ s)) =
        .ok (before ++ (lead ++ (x' ++ c :: trail)) :: after) := by
  obtain ⟨done, start, previous, hdone, hbegun, hcollect⟩ :=
    exists_collect_front front opening {} none none hfront (by simp)
  have hall := all_enclosed hpasses htokens hcollect
  have hall' := all_enclosed hpasses' htokens' hcollect
  have hplace : ∀ y : Text, p.byteSize < (p ++ (y ++ [c])).byteSize := by
    intro y
    have hpos := c.utf8Size_pos
    simp only [Text.byteSize_append, Text.byteSize_cons, Text.byteSize_nil]
    omega
  have hfirst : start.getD opening.start ≤ p.byteSize := by
    cases start with
    | none => exact Nat.le_of_eq hstart
    | some first => exact hbegun first rfl
  obtain ⟨hlaid, hle⟩ := Token.laid_scanFrom s (p ++ (x ++ [c])) none
  obtain ⟨hlaid', hle'⟩ := Token.laid_scanFrom s (p ++ (x' ++ [c])) none
  obtain ⟨begun, begun', later, later', hlater, hlater', hbegin, hbegin', hsame, hshifted⟩ :=
    (collect_shifted (Token.forall₂_shifted s none none (.inl rfl) (Nat.le_refl _)
      (Nat.add_comm _ _)) hlaid.pairwise_start hlaid'.pairwise_start
      (Nesting.through {} front (some opening))).2 (start.getD opening.start)
      (start.getD opening.start) closing closing' htext (Nat.le_of_eq hstop.symm) (by omega)
      (fun token hmem => by have := hle token hmem; have := hplace x; omega)
      (fun token hmem => by have := hle' token hmem; have := hplace x'; omega)
  rw [hlater] at hall
  rw [hlater'] at hall'
  exact split_replaced policy hc hall hall' hdone (hbegin.trans hbegin'.symm)
    (hbegin ▸ hfirst) hsame hshifted

/-- What stands in a quoted literal does not matter to the splitter : the script falls into the same
statements, and only the one with the literal differs, by what stands between its marks. The mark
that opens the literal stands outside of literals, behind a text without an opening bracket. -/
theorem split_quoted (policy : TerminatorPolicy) {p a b s : Text} {mark : Char}
    (hmark : Text.isQuoteMark mark = true) (hp : '[' ∉ p) (ha : mark ∉ a) (hb : mark ∉ b)
    (hopening : ∃ token ∈ tokens (p ++ mark :: (a ++ mark :: s)), token.start = p.byteSize ∧
      token.inQuotes = false) : ∃ before lead trail after, lead <:+ p ∧ trail <+: s ∧
      split policy (p ++ mark :: (a ++ mark :: s)) =
        .ok (before ++ (lead ++ mark :: (a ++ mark :: trail)) :: after) ∧
      split policy (p ++ mark :: (b ++ mark :: s)) =
        .ok (before ++ (lead ++ mark :: (b ++ mark :: trail)) :: after) := by
  obtain ⟨token, hmem, hstart, hopens⟩ := hopening
  obtain ⟨front, hfront, hsub, houtside, hscan⟩ := exists_front_of_opening hmark hmem hstart hopens
  let opening : Token := ⟨p.byteSize, p.byteSize + mark.utf8Size, [mark], false⟩
  have hplain : (Nesting.through {} front (some opening)).Plain := by
    have htracks : Nesting.Tracks {} none := ⟨rfl, rfl⟩
    obtain ⟨hbracket, hquote⟩ := htracks.through (fun token hfront htext =>
      hp (hsub token hfront (by simp [htext]))) (some opening)
    exact ⟨hbracket, by rw [hquote, houtside]; rfl⟩
  have hliteral : ∀ content : Text, mark ∉ content → ∃ inside closing,
      tokens (p ++ (mark :: content ++ [mark] ++ s)) = front ++ opening :: (inside ++ closing ::
        (Token.scanFrom (p ++ (mark :: content ++ [mark])).byteSize none s).tokens) ∧
      closing.text = [mark] ∧ closing.stop = (p ++ (mark :: content ++ [mark])).byteSize ∧
      ∀ next, (Nesting.through {} front (some opening)).Passes
        (opening :: (inside ++ [closing])) next (Nesting.through {} front (some opening)) := by
    intro content hcontent
    obtain ⟨inside, hinside, hread⟩ := Layout.exists_scanFrom_literal p.byteSize
      ⟨mark, content, hmark, hcontent⟩
    let closing : Token := ⟨p.byteSize + mark.utf8Size + content.byteSize,
      (p ++ (mark :: content ++ [mark])).byteSize, [mark], true⟩
    have hplace : p.byteSize + Text.byteSize (mark :: (content ++ [mark])) = closing.stop := by
      simp [closing]
    simp only [Layout.Lexeme.text, hplace] at hread
    refine ⟨inside, closing, ?_, rfl, rfl, Nesting.passes_literal hplain hmark rfl hinside rfl⟩
    have hsql : p ++ (mark :: content ++ [mark] ++ s) =
        p ++ mark :: (content ++ [mark] ++ s) := by simp
    rw [hsql, hscan]
    exact congrArg (front ++ ·) (hread s)
  obtain ⟨inside, closing, htokens, htext, hstop, hpasses⟩ := hliteral a ha
  obtain ⟨inside', closing', htokens', htext', hstop', hpasses'⟩ := hliteral b hb
  have hmiddle : ∀ content rest : Text, p ++ mark :: (content ++ mark :: rest) =
      p ++ (mark :: content ++ [mark] ++ rest) := by simp
  rw [hmiddle, hmiddle]
  exact split_enclosed policy (isBlank_of_isQuoteMark hmark) hfront rfl htokens htokens' hpasses
    hpasses' (htext.trans htext'.symm) hstop hstop'

/-- Keywords, a `;`, a bracket, a comment mark and the other quote mark in a literal, and a block
around it. -/
theorem split_quoted_keywords :
    Text.isQuoteMark '\'' = true ∧ '[' ∉ "a; begin ".toList ∧ '\'' ∉ "; end [ -- \"".toList ∧
    (∃ token ∈ tokens "a; begin '; end [ -- \"' end; c".toList, token.start = 9 ∧
      token.inQuotes = false) ∧
    ∃ before lead trail after, lead <:+ "a; begin ".toList ∧ trail <+: " end; c".toList ∧
      split .blockOnly "a; begin '; end [ -- \"' end; c".toList =
        .ok (before ++ (lead ++ '\'' :: ("; end [ -- \"".toList ++ '\'' :: trail)) :: after) ∧
      split .blockOnly "a; begin 'b' end; c".toList =
        .ok (before ++ (lead ++ '\'' :: ("b".toList ++ '\'' :: trail)) :: after) := by
  have hp : '[' ∉ "a; begin ".toList := by decide
  have ha : '\'' ∉ "; end [ -- \"".toList := by decide
  have hopening : ∃ token ∈ tokens "a; begin '; end [ -- \"' end; c".toList, token.start = 9 ∧
      token.inQuotes = false :=
    ⟨⟨9, 10, ['\''], false⟩, by decide +kernel, rfl, rfl⟩
  exact ⟨rfl, hp, ha, hopening, split_quoted .blockOnly (p := "a; begin ".toList)
    (a := "; end [ -- \"".toList) (b := "b".toList) (s := " end; c".toList) rfl hp ha (by decide)
    hopening⟩

end Statement

end SqlScript
