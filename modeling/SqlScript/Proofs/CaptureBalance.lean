import Mathlib.Data.List.Forall2
import SqlScript.Proofs.CaptureScope

/-!
# Quotes and parentheses in a match

A match takes a run of tokens for each block of its pattern. What a literal takes stands outside of
quotes. What a variable takes holds quoted literals only whole (`Search.Paired`), and outside of
them its parentheses are balanced by number : as many are closed as are opened, and no front of the
run closes more than it opens (`Search.Balanced`). `Search.search_respects_nesting` says so of every
match of a plain pattern, for all its blocks.

Both are read off the flags of the tokens, which the scanner sets, while the matcher keeps a stack
of its own. The two go together since a match starts outside of quotes, and a closed run leaves no
literal open (`Closed.flagged`).
-/

namespace SqlScript

open List

variable {run : List Token}

namespace Search

/-- The run holds quoted literals only whole, and all else in it is outside of quotes. -/
inductive Paired : List Token → Prop where
  | nil : Paired []
  | bare {token : Token} {later : List Token} : token.isQuote = false → token.inQuotes = false →
    Paired later → Paired (token :: later)
  | literal {opening closing : Token} {inside later : List Token} : opening.isQuote = true →
    opening.inQuotes = false → (∀ token ∈ inside, token.text ≠ opening.text) →
    closing.text = opening.text → (∀ token ∈ inside ++ [closing], token.inQuotes = true) →
    Paired later → Paired (opening :: (inside ++ closing :: later))

/-- How often the symbol stands in the run outside of quotes. -/
def outside (c : Char) (run : List Token) : Nat :=
  run.countP fun token => token.text == [c] && !token.inQuotes

/-- Outside of quotes as many parentheses are closed in the run as are opened, and no front of it
closes more than it opens. -/
structure Balanced (run : List Token) : Prop where
  total : outside ')' run = outside '(' run
  front : ∀ before, before <+: run → outside ')' before ≤ outside '(' before

/-- The tokens that a block takes keep to quotes and parentheses. -/
inductive Respects : PatternBlock → List Token → Prop where
  | literal {text : Text} {token : Token} : token.is text = true → token.inQuotes = false →
    Respects (.literal text) [token]
  | capture {name : Text} {segment : List Token} : Paired segment → Balanced segment →
    Respects (.placeholder name none) segment

/-! ## Closed runs -/

theorem Paired.append {run' : List Token} (h : Paired run) (h' : Paired run') :
    Paired (run ++ run') := by
  induction h with
  | nil => exact h'
  | bare hquote houtside _ ih => exact .bare hquote houtside ih
  | literal hquote houtside hinside hclosing hflags _ ih =>
    rw [cons_append, append_assoc, cons_append]
    exact .literal hquote houtside hinside hclosing hflags ih

theorem outside_append (c : Char) (run run' : List Token) :
    outside c (run ++ run') = outside c run + outside c run' :=
  countP_append

theorem outside_cons_of_eq {c : Char} {token : Token} (htext : token.text = [c])
    (houtside : token.inQuotes = false) (run : List Token) :
    outside c (token :: run) = outside c run + 1 :=
  countP_cons_of_pos (by simp [htext, houtside])

theorem outside_cons_of_ne {c : Char} {token : Token} (h : token.text ≠ [c]) (run : List Token) :
    outside c (token :: run) = outside c run :=
  countP_cons_of_neg (by simp [h])

/-- A run without parentheses outside of quotes is balanced. -/
theorem balanced_of_forall
    (h : ∀ token ∈ run, token.inQuotes ∨ token.text ≠ ['('] ∧ token.text ≠ [')']) :
    Balanced run := by
  have hzero : ∀ part : List Token, part <+: run → outside '(' part = 0 ∧ outside ')' part = 0 := by
    intro part hpart
    simp only [outside, countP_eq_zero]
    refine ⟨fun token hmem => ?_, fun token hmem => ?_⟩
    all_goals
      rcases h token (hpart.subset hmem) with hflag | ⟨hopening, hclosing⟩
      · simp [hflag]
      · simp [hopening, hclosing]
  refine ⟨?_, fun before hbefore => ?_⟩
  · rw [(hzero run (prefix_refl _)).1, (hzero run (prefix_refl _)).2]
  · rw [(hzero before hbefore).2]
    exact Nat.zero_le _

theorem Balanced.append {run' : List Token} (h : Balanced run) (h' : Balanced run') :
    Balanced (run ++ run') := by
  refine ⟨by rw [outside_append, outside_append, h.total, h'.total], ?_⟩
  rintro before ⟨after, happend⟩
  rcases append_eq_append_iff.1 happend with ⟨gap, rfl, -⟩ | ⟨gap, rfl, hgap⟩
  · exact h.front before (prefix_append _ _)
  · have hfront := h'.front gap ⟨after, hgap.symm⟩
    rw [outside_append, outside_append, h.total]
    omega

/-- A balanced run is balanced in parentheses. -/
theorem Balanced.group (h : Balanced run) {opening closing : Token}
    (hopening : opening.text = ['(']) (hopens : opening.inQuotes = false)
    (hclosing : closing.text = [')']) (hcloses : closing.inQuotes = false) :
    Balanced (opening :: (run ++ [closing])) := by
  have hopening' : opening.text ≠ [')'] := by simp [hopening]
  have hclosing' : closing.text ≠ ['('] := by simp [hclosing]
  have htotal : outside ')' (run ++ [closing]) = outside '(' (run ++ [closing]) + 1 := by
    rw [outside_append, outside_append, outside_cons_of_eq hclosing hcloses,
      outside_cons_of_ne hclosing', h.total]
    rfl
  constructor
  · rw [outside_cons_of_ne hopening', outside_cons_of_eq hopening hopens, htotal]
  · intro before hbefore
    rcases prefix_cons_iff.1 hbefore with rfl | ⟨before, rfl, hinner⟩
    · exact Nat.le_refl _
    · rw [outside_cons_of_ne hopening', outside_cons_of_eq hopening hopens]
      rcases prefix_concat_iff.1 hinner with rfl | hinner
      · exact Nat.le_of_eq htotal
      · exact Nat.le_succ_of_le (h.front before hinner)

/-- A closed run that starts outside of quotes holds literals only whole, and is balanced. -/
theorem Closed.paired_balanced (h : Closed run) {later : List Token}
    (hflagged : Token.Flagged none (run ++ later)) : Paired run ∧ Balanced run := by
  induction h generalizing later with
  | nil => exact ⟨.nil, balanced_of_forall (by simp)⟩
  | @plain token rest hquote hopening hclosing _ ih =>
    obtain ⟨houtside, hnext⟩ := hflagged
    rw [markAfter_of_isQuote_eq_false hquote] at hnext
    obtain ⟨hpaired, hbalanced⟩ := ih hnext
    have hfirst : Balanced [token] := balanced_of_forall (by simp [hopening, hclosing])
    exact ⟨.bare hquote houtside hpaired, hfirst.append hbalanced⟩
  | @quoted opening closing inside rest hquote hinside hclosing _ ih =>
    rw [cons_append, append_assoc] at hflagged
    obtain ⟨hflags, hnext⟩ := flagged_quoted hquote hinside hclosing hflagged
    obtain ⟨hpaired, hbalanced⟩ := ih hnext
    refine ⟨.literal hquote hflagged.1 hinside hclosing hflags hpaired, ?_⟩
    have hunit : Balanced (opening :: (inside ++ [closing])) := by
      refine balanced_of_forall (forall_mem_cons.2 ⟨.inr ?_, fun token hmem => ?_⟩)
      · constructor <;> intro htext <;> simp [Token.isQuote, htext] at hquote
      · exact .inl (hflags token hmem)
    simpa using hunit.append hbalanced
  | @group opening closing inside rest hopening hclosing hclosed _ ihi ihl =>
    rw [cons_append, append_assoc] at hflagged
    obtain ⟨hopens, hcloses, hnext⟩ := flagged_group hopening hclosing hclosed.flagged hflagged
    have hopenQuote := isQuote_of_text_eq hopening (by decide)
    have hin := hflagged.2
    rw [markAfter_of_isQuote_eq_false hopenQuote] at hin
    obtain ⟨hpaired, hbalanced⟩ := ihi hin
    obtain ⟨hpaired', hbalanced'⟩ := ihl hnext
    refine ⟨.bare hopenQuote hopens (hpaired.append
      (.bare (isQuote_of_text_eq hclosing (by decide)) hcloses hpaired')), ?_⟩
    simpa using (hbalanced.group hopening hopens hclosing hcloses).append hbalanced'

/-! ## Matches -/

/-- All that a committed match takes keeps to quotes and parentheses, if it starts outside of
quotes. -/
theorem Committed.respects {sql : Text} {blocks : List PatternBlock}
    {segments : List (List Token)} {captures : List (Text × Text)}
    (h : Committed sql blocks run segments captures) (hplain : ∀ block ∈ blocks, block.Plain)
    (hflagged : Token.Flagged none run) : List.Forall₂ Respects blocks segments := by
  induction h with
  | done => exact .nil
  | literal his _ ih =>
    obtain ⟨hblock, hblocks⟩ := forall_mem_cons.1 hplain
    obtain ⟨houtside, hnext⟩ := hflagged
    rw [markAfter_of_isQuote_eq_false (isQuote_eq_false_of_is hblock his)] at hnext
    exact .cons (.literal his houtside) (ih hblocks hnext)
  | capture hcaptured _ _ _ ih =>
    obtain ⟨hblock, hblocks⟩ := forall_mem_cons.1 (forall_mem_cons.1 hplain).2
    obtain ⟨hpaired, hbalanced⟩ := hcaptured.closed.paired_balanced hflagged
    obtain ⟨houtside, hnext⟩ := hcaptured.closed.flagged hflagged
    rw [markAfter_of_isQuote_eq_false (isQuote_eq_false_of_is hblock hcaptured.stops)] at hnext
    exact .cons (.capture hpaired hbalanced)
      (.cons (.literal hcaptured.stops houtside) (ih hblocks hnext))

/-- The match that a search for a plain pattern returns is made up of one run of tokens for each
block: a token outside of quotes for a literal; and for a variable a run that holds quoted literals
only whole, and in which parentheses are balanced outside of them. -/
theorem search_respects_nesting (sql : Text) (pattern : Pattern)
    (hplain : ∀ block ∈ pattern.blocks, block.Plain) (first : Nat) :
    ∃ result, search sql (tokens sql) pattern first = .ok result ∧
      ∀ found, result = some found → ∃ segments captures,
        Starts sql pattern.blocks ((tokens sql).drop found.startToken) segments captures ∧
        Reports sql found segments captures ∧ List.Forall₂ Respects pattern.blocks segments := by
  obtain ⟨result, hresult, hlocated⟩ :=
    exists_firstFrom hplain _ (rfl : (tokens sql).drop first = _)
  refine ⟨result, hresult, ?_⟩
  rintro found rfl
  cases hlocated with
  | @found segments captures _ _ _ hstarts hreports =>
    obtain ⟨token, hhead, houtside⟩ := hstarts.outside
    exact ⟨segments, captures, hstarts, hreports, hstarts.committed.respects hplain
      (flagged_drop (flagged_tokens sql) hhead houtside)⟩

/-- Literals that hold a parenthesis, a mark of the other kind, or the word that ends a capture. -/
def quotedColumns : Text :=
  "SELECT f('(\"'), (\"from '\") FROM t".toList

theorem search_respects_nesting_columns :
    (∀ block ∈ columns.blocks, block.Plain) ∧
    (search quotedColumns (tokens quotedColumns) columns 0).toOption =
      some (some ⟨0, 31, 0, [("columns".toList, "f('(\"'), (\"from '\") ".toList)]⟩) ∧
    ∃ segments captures,
      Reports quotedColumns ⟨0, 31, 0, [("columns".toList, "f('(\"'), (\"from '\") ".toList)]⟩
        segments captures ∧
      List.Forall₂ Respects columns.blocks segments := by
  have hplain : ∀ block ∈ columns.blocks, block.Plain := by decide
  have hsearch : (search quotedColumns (tokens quotedColumns) columns 0).toOption =
      some (some ⟨0, 31, 0, [("columns".toList, "f('(\"'), (\"from '\") ".toList)]⟩) := by
    decide +kernel
  refine ⟨hplain, hsearch, ?_⟩
  obtain ⟨result, hresult, hfound⟩ := search_respects_nesting quotedColumns columns hplain 0
  rw [hresult] at hsearch
  obtain ⟨segments, captures, -, hreports, hrespects⟩ := hfound _ (Option.some.inj hsearch)
  exact ⟨segments, captures, hreports, hrespects⟩

end Search

end SqlScript
