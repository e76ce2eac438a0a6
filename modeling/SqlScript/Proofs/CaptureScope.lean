import SqlScript.Proofs.Scanning
import SqlScript.Proofs.Search
import SqlScript.Span
import SqlScript.Statement

/-!
# What stands in a capture

A capture is cut from the script between the starts of two tokens, so the tokens in it are a closed
run (`Search.tokensIn`). No `;` follows a closed part of that run, unless it stands in a quoted
literal. What is left for a `;` outside of quotes is to stand in parentheses that are opened and
closed in the capture (`Search.Grouped`), and there it may stand (`capture_crosses_statement`).

That a token of a closed run is flagged as quoted just if it stands in a literal of the run follows
from the flags of all tokens (`flagged_tokens`), since a committed match starts outside of quotes
and each block leaves it so (`Committed.exists_capture`).
-/

namespace SqlScript

open List Token

namespace Search

/-- The tokens that lie in the extent. -/
def tokensIn (sql : Text) (extent : Extent) : List Token :=
  (tokens sql).filter fun token => extent.start ≤ token.start && token.stop ≤ extent.stop

/-- The token stands in a pair of parentheses of the run, which is outside of quotes. -/
def Grouped (run : List Token) (token : Token) : Prop :=
  ∃ (front : List Token) (opening : Token) (inside : List Token) (closing : Token)
    (rest : List Token), run = front ++ opening :: (inside ++ closing :: rest) ∧
    opening.text = ['('] ∧ opening.inQuotes = false ∧
    closing.text = [')'] ∧ closing.inQuotes = false ∧ Closed inside ∧ token ∈ inside

/-! ## Flags in a closed run -/

variable {token closing boundary : Token} {inside later run segment : List Token}

theorem markAfter_of_isQuote_eq_false (h : token.isQuote = false) :
    markAfter none token = none := by
  simp [markAfter, h]

theorem isQuote_of_text_eq {c : Char} (h : token.text = [c])
    (hc : Text.isQuoteMark c = false) : token.isQuote = false := by
  simpa [isQuote, Text.isQuoteMark, h] using hc

/-- Up to its mark a literal is flagged and stays open. -/
theorem flagged_inside {mark : Char} {rest : List Token} (h : ∀ token ∈ inside, token.text ≠ [mark])
    (hflagged : Flagged (some mark) (inside ++ rest)) :
    (∀ token ∈ inside, token.inQuotes) ∧ Flagged (some mark) rest := by
  induction inside with
  | nil => exact ⟨by simp, hflagged⟩
  | cons token inside ih =>
    obtain ⟨hflag, hlater⟩ := hflagged
    rw [markAfter, if_neg (h token mem_cons_self)] at hlater
    obtain ⟨hinside, hrest⟩ := ih (fun token hmem => h token (mem_cons_of_mem _ hmem)) hlater
    exact ⟨forall_mem_cons.2 ⟨hflag, hinside⟩, hrest⟩

/-- A literal is flagged through its closing mark, and after it no literal is open. -/
theorem flagged_quoted {opening : Token} (hquote : opening.isQuote)
    (hinside : ∀ token ∈ inside, token.text ≠ opening.text) (hclosing : closing.text = opening.text)
    (hflagged : Flagged none (opening :: (inside ++ closing :: later))) :
    (∀ token ∈ inside ++ [closing], token.inQuotes) ∧ Flagged none later := by
  obtain ⟨mark, htext, -⟩ := exists_mark_of_isQuote hquote
  rw [htext] at hinside hclosing
  have hopen := hflagged.2
  rw [markAfter, if_pos hquote, htext, head?_cons] at hopen
  obtain ⟨hflags, hlast, hlater⟩ := flagged_inside hinside hopen
  rw [markAfter, if_pos hclosing] at hlater
  exact ⟨forall_mem_append.2 ⟨hflags, forall_mem_singleton.2 hlast⟩, hlater⟩

/-- The parentheses around a run that leaves no literal open are not flagged. -/
theorem flagged_group {opening : Token}
    (hopening : opening.text = ['(']) (hclosing : closing.text = [')'])
    (hinside : ∀ {rest}, Flagged none (inside ++ rest) → Flagged none rest)
    (hflagged : Flagged none (opening :: (inside ++ closing :: later))) :
    opening.inQuotes = false ∧ closing.inQuotes = false ∧ Flagged none later := by
  obtain ⟨hopens, hin⟩ := hflagged
  rw [markAfter_of_isQuote_eq_false (isQuote_of_text_eq hopening (by decide))] at hin
  obtain ⟨hcloses, hnext⟩ := hinside hin
  rw [markAfter_of_isQuote_eq_false (isQuote_of_text_eq hclosing (by decide))] at hnext
  exact ⟨hopens, hcloses, hnext⟩

/-- After a closed run no literal is open. -/
theorem Closed.foldl_markAfter (h : Closed run) : run.foldl markAfter none = none := by
  induction h with
  | nil => rfl
  | plain hquote _ _ _ ih => rw [foldl_cons, markAfter_of_isQuote_eq_false hquote, ih]
  | @quoted opening closing inside later hquote hinside hclosing _ ih =>
    obtain ⟨mark, htext, -⟩ := exists_mark_of_isQuote hquote
    rw [htext] at hinside hclosing
    have hopen : markAfter none opening = some mark := by
      rw [markAfter, if_pos hquote, htext, head?_cons]
    have hclose : markAfter (some mark) closing = none := by
      rw [markAfter, if_pos hclosing]
    rw [foldl_cons, hopen, foldl_append, foldl_markAfter_inside hinside, foldl_cons, hclose, ih]
  | @group opening closing inside later hopening hclosing _ _ ihi ihl =>
    have hopens := markAfter_of_isQuote_eq_false (isQuote_of_text_eq hopening (by decide))
    have hcloses := markAfter_of_isQuote_eq_false (isQuote_of_text_eq hclosing (by decide))
    rw [foldl_cons, hopens, foldl_append, ihi, foldl_cons, hcloses, ihl]

theorem Closed.flagged (h : Closed run)
    (hflagged : Flagged none (run ++ later)) : Flagged none later := by
  have hlater := hflagged.of_append
  rwa [h.foldl_markAfter] at hlater

/-! ## A `;` in a closed run -/

/-- Where a token stands in a list that a token divides. -/
theorem append_cons_cases {before after : List Token}
    (h : inside ++ closing :: later = before ++ token :: after) :
    token ∈ inside ∨ token = closing ∨
      ∃ before', before = inside ++ closing :: before' ∧ later = before' ++ token :: after := by
  rcases append_eq_append_iff.1 h with ⟨gap, rfl, hgap⟩ | ⟨gap, rfl, hgap⟩
  · cases gap with
    | nil => exact .inr (.inl (cons.inj hgap).1.symm)
    | cons first gap =>
      cases hgap
      exact .inr (.inr ⟨gap, rfl, rfl⟩)
  · cases gap with
    | nil => exact .inr (.inl (cons.inj hgap).1)
    | cons first gap =>
      cases hgap
      exact .inl (by simp)

theorem Grouped.append (h : Grouped run token)
    (front : List Token) : Grouped (front ++ run) token := by
  obtain ⟨front', opening, inside, closing, rest, rfl, h⟩ := h
  exact ⟨front ++ front', opening, inside, closing, rest, by simp, h⟩

theorem Grouped.after_unit (h : Grouped run token) (opening : Token) (inside : List Token)
    (closing : Token) : Grouped (opening :: (inside ++ closing :: run)) token := by
  simpa using h.append (opening :: (inside ++ [closing]))

/-- A `;` outside of quotes follows a closed part of the run, or stands in parentheses. -/
theorem Closed.semicolon (h : Closed run) (hflagged : Flagged none (run ++ later))
    {before after : List Token} (hrun : run = before ++ token :: after) (htext : token.text = [';'])
    (houtside : token.inQuotes = false) : Closed before ∨ Grouped run token := by
  induction h generalizing before later with
  | nil => simp at hrun
  | @plain first rest hquote hopening hclosing _ ih =>
    cases before with
    | nil => exact .inl .nil
    | cons b before =>
      obtain ⟨rfl, hrest⟩ := cons.inj hrun
      have hnext := hflagged.2
      rw [markAfter_of_isQuote_eq_false hquote] at hnext
      rcases ih hnext hrest with hclosed | hgrouped
      · exact .inl (.plain hquote hopening hclosing hclosed)
      · exact .inr (hgrouped.append [first])
  | @quoted opening closing inside rest hquote hinside hclosing _ ih =>
    have hne : token.text ≠ opening.text := by
      intro heq
      rw [isQuote, ← heq, htext] at hquote
      exact absurd hquote (by decide)
    rw [cons_append, append_assoc] at hflagged
    obtain ⟨hflags, hnext⟩ := flagged_quoted hquote hinside hclosing hflagged
    cases before with
    | nil => exact absurd (congrArg text (cons.inj hrun).1.symm) hne
    | cons b before =>
      obtain ⟨rfl, hrest⟩ := cons.inj hrun
      rcases append_cons_cases hrest with hmem | rfl | ⟨before', rfl, hrest'⟩
      · rw [hflags token (mem_append_left _ hmem)] at houtside
        cases houtside
      · exact absurd hclosing hne
      · rcases ih hnext hrest' with hclosed | hgrouped
        · exact .inl (.quoted hquote hinside hclosing hclosed)
        · exact .inr (hgrouped.after_unit opening inside closing)
  | @group opening closing inside rest hopening hclosing hinside _ _ ihl =>
    rw [cons_append, append_assoc] at hflagged
    obtain ⟨hopens, hcloses, hnext⟩ := flagged_group hopening hclosing hinside.flagged hflagged
    cases before with
    | nil =>
      rw [(cons.inj hrun).1, htext] at hopening
      exact absurd hopening (by decide)
    | cons b before =>
      obtain ⟨rfl, hrest⟩ := cons.inj hrun
      rcases append_cons_cases hrest with hmem | rfl | ⟨before', rfl, hrest'⟩
      · exact .inr ⟨[], opening, inside, closing, rest, rfl, hopening, hopens, hclosing, hcloses,
          hinside, hmem⟩
      · rw [htext] at hclosing
        exact absurd hclosing (by decide)
      · rcases ihl hnext hrest' with hclosed | hgrouped
        · exact .inl (.group hopening hclosing hinside hclosed)
        · exact .inr (hgrouped.after_unit opening inside closing)

/-- A `;` outside of quotes stands in a capture only in parentheses. -/
theorem Captured.grouped {literal : Text} (h : Captured literal segment boundary)
    (hflagged : Flagged none (segment ++ later)) (hmem : token ∈ segment)
    (htext : token.text = [';']) (houtside : token.inQuotes = false) : Grouped segment token := by
  obtain ⟨before, after, hsegment⟩ := append_of_mem hmem
  rcases h.closed.semicolon hflagged hsegment htext houtside with hclosed | hgrouped
  · exact absurd htext (h.first before token after hsegment hclosed).2.1
  · exact hgrouped

/-! ## Captures of a match -/

/-- The value is cut from the run of tokens `segment`, which is captured among the tokens `taken` of
the run, and no literal is open before it. -/
structure CapturedIn (sql : Text) (run taken : List Token) (value : Text) (segment : List Token)
    (first boundary : Token) : Prop where
  placed : ∃ front rest, run = front ++ (segment ++ boundary :: rest) ∧
    Flagged none (segment ++ boundary :: rest)
  captured : ∃ literal, Captured literal segment boundary
  head : (segment ++ [boundary]).head? = some first
  slice : sql.slice? first.start boundary.start = some value
  within : ∀ token ∈ segment ++ [boundary], token ∈ taken

theorem CapturedIn.append {sql : Text} {taken : List Token} {value : Text} {first : Token}
    (h : CapturedIn sql run taken value segment first boundary) (front : List Token) :
    CapturedIn sql (front ++ run) (front ++ taken) value segment first boundary := by
  obtain ⟨front', rest, rfl, hflagged⟩ := h.placed
  exact ⟨⟨front ++ front', rest, (append_assoc _ _ _).symm, hflagged⟩, h.captured, h.head,
    h.slice, fun token hmem => mem_append_right _ (h.within token hmem)⟩

/-- Each capture of a committed match is captured outside of quotes. -/
theorem Committed.exists_capture {sql : Text} {blocks : List PatternBlock}
    {segments : List (List Token)} {captures : List (Text × Text)}
    (h : Committed sql blocks run segments captures) (hplain : ∀ block ∈ blocks, block.Plain)
    (hflagged : Flagged none run) {name value : Text} (hmem : (name, value) ∈ captures) :
    ∃ segment first boundary, CapturedIn sql run segments.flatten value segment first boundary := by
  induction h with
  | done => simp at hmem
  | @literal text blocks token later segments captures his _ ih =>
    obtain ⟨hblock, hblocks⟩ := forall_mem_cons.1 hplain
    have hnext := hflagged.2
    rw [markAfter_of_isQuote_eq_false (isQuote_eq_false_of_is hblock his)] at hnext
    obtain ⟨segment, first, boundary, hcaptured⟩ := ih hblocks hnext hmem
    exact ⟨segment, first, boundary, hcaptured.append [token]⟩
  | @capture name' text value' blocks segment later first boundary segments captures hcaptured
      hfirst hslice _ ih =>
    obtain ⟨hblock, hblocks⟩ := forall_mem_cons.1 (forall_mem_cons.1 hplain).2
    rcases mem_cons.1 hmem with heq | hmem
    · cases heq
      refine ⟨segment, first, boundary, ⟨[], later, rfl, hflagged⟩, ⟨text, hcaptured⟩, hfirst,
        hslice, fun token htoken => ?_⟩
      rw [flatten_cons, flatten_cons, ← append_assoc]
      exact mem_append_left _ htoken
    · have hnext := (hcaptured.closed.flagged hflagged).2
      rw [markAfter_of_isQuote_eq_false (isQuote_eq_false_of_is hblock hcaptured.stops)] at hnext
      obtain ⟨segment', first', boundary', hcaptured'⟩ := ih hblocks hnext hmem
      refine ⟨segment', first', boundary', ?_⟩
      have happend := hcaptured'.append (segment ++ [boundary])
      rwa [append_assoc, append_assoc] at happend

theorem CapturedIn.tokensIn_eq {sql : Text} {index : Nat} {taken : List Token} {value : Text}
    {first : Token}
    (h : CapturedIn sql ((tokens sql).drop index) taken value segment first boundary) :
    tokensIn sql ⟨first.start, boundary.start⟩ = segment := by
  obtain ⟨front, rest, hrun, -⟩ := h.placed
  have htokens : tokens sql =
      (tokens sql).take index ++ front ++ (segment ++ boundary :: rest) := by
    rw [append_assoc, ← hrun, take_append_drop]
  have hlaid := laid_tokens sql
  rw [htokens] at hlaid
  rw [tokensIn, htokens]
  exact hlaid.filter_until h.head

/-- A token outside of quotes has no open literal before it. -/
theorem flagged_drop {mark : Option Char} {index : Nat} (h : Flagged mark run)
    (hhead : (run.drop index).head? = some token)
    (houtside : token.inQuotes = false) : Flagged none (run.drop index) := by
  rw [← take_append_drop index run] at h
  have hlater := h.of_append
  obtain ⟨later, hdrop⟩ := head?_eq_some_iff.1 hhead
  rw [hdrop] at hlater ⊢
  have hflag := hlater.1
  rw [houtside, eq_comm, Option.isSome_eq_false_iff, Option.isNone_iff_eq_none] at hflag
  rwa [hflag] at hlater

/-- Each value of a match is cut out of it, and a `;` outside of quotes stands in what was cut only
in parentheses that open and close there. -/
theorem semicolon_grouped_in_capture (sql : Text) (pattern : Pattern)
    (hplain : ∀ block ∈ pattern.blocks, block.Plain) (first : Nat) :
    ∃ result, search sql (tokens sql) pattern first = .ok result ∧
      ∀ found, result = some found → ∀ name value, found.bindings.get? name = some value →
        ∃ extent : Extent, found.start ≤ extent.start ∧ extent.stop ≤ found.stop ∧
          sql.slice? extent.start extent.stop = some value ∧
          ∀ token ∈ tokensIn sql extent, token.text = [';'] → token.inQuotes = false →
            Grouped (tokensIn sql extent) token := by
  obtain ⟨result, hresult, hlocated⟩ :=
    exists_firstFrom hplain _ (rfl : (tokens sql).drop first = _)
  refine ⟨result, hresult, ?_⟩
  rintro found rfl name value hvalue
  cases hlocated with
  | @found segments captures _ _ _ hstarts hreports =>
    have hmem : (name, value) ∈ captures := by
      rw [hreports.bindings] at hvalue
      obtain ⟨before, after, hsplit, -⟩ := List.lookup_eq_some_iff.1 hvalue
      exact List.mem_reverse.1 (by simp [hsplit])
    obtain ⟨start, hhead, houtside⟩ := hstarts.outside
    obtain ⟨segment, head, boundary, hcapture⟩ := hstarts.committed.exists_capture hplain
      (flagged_drop (flagged_tokens sql) hhead houtside) hmem
    have hbounds : ∀ token ∈ segment ++ [boundary],
        token ∈ tokens sql ∧ found.start ≤ token.start ∧ token.stop ≤ found.stop := by
      intro token hmem
      have htaken := hcapture.within token hmem
      rw [← hreports.tokens] at htaken
      simpa using htaken
    obtain ⟨hboundary, -, hstop⟩ := hbounds boundary (by simp)
    have hlt := (laid_tokens sql).start_lt_stop hboundary
    refine ⟨⟨head.start, boundary.start⟩, (hbounds head (List.mem_of_head? hcapture.head)).2.1,
      Nat.le_trans (Nat.le_of_lt hlt) hstop, hcapture.slice, ?_⟩
    obtain ⟨front, rest, -, hflags⟩ := hcapture.placed
    obtain ⟨literal, hcaptured⟩ := hcapture.captured
    rw [hcapture.tokensIn_eq]
    intro token hmem htext hquotes
    exact hcaptured.grouped hflags hmem htext hquotes

/-- A table to be dropped, by a pattern. -/
def dropped : Pattern where
  source := "drop table @table if exists".toList
  blocks := [.literal "drop".toList, .literal "table".toList, .placeholder "table".toList none,
    .literal "if".toList, .literal "exists".toList]

/-- Two statements, with parentheses that open in the one and close in the other. -/
def straddled : Text :=
  "DROP TABLE (a; SELECT 1) IF EXISTS".toList

theorem semicolon_grouped_in_straddled :
    (∀ block ∈ dropped.blocks, block.Plain) ∧
    (search straddled (tokens straddled) dropped 0).toOption =
      some (some ⟨0, 34, 0, [("table".toList, "(a; SELECT 1) ".toList)]⟩) ∧
    ∃ extent : Extent, extent.stop ≤ 34 ∧
      straddled.slice? extent.start extent.stop = some "(a; SELECT 1) ".toList ∧
      ∀ token ∈ tokensIn straddled extent, token.text = [';'] → token.inQuotes = false →
        Grouped (tokensIn straddled extent) token := by
  have hplain : ∀ block ∈ dropped.blocks, block.Plain := by decide
  have hsearch : (search straddled (tokens straddled) dropped 0).toOption =
      some (some ⟨0, 34, 0, [("table".toList, "(a; SELECT 1) ".toList)]⟩) := by
    decide +kernel
  refine ⟨hplain, hsearch, ?_⟩
  obtain ⟨result, hresult, hfound⟩ := semicolon_grouped_in_capture straddled dropped hplain 0
  rw [hresult] at hsearch
  obtain ⟨extent, -, hstop, hslice, hgrouped⟩ :=
    hfound _ (Option.some.inj hsearch) "table".toList _ rfl
  exact ⟨extent, hstop, hslice, hgrouped⟩

/-- A capture may cross the end of a statement, in parentheses. -/
theorem capture_crosses_statement :
    (Pattern.compile dropped.source).toOption = some dropped ∧
    (∀ block ∈ dropped.blocks, block.Plain) ∧
    (search straddled (tokens straddled) dropped 0).toOption =
      some (some ⟨0, 34, 0, [("table".toList, "(a; SELECT 1) ".toList)]⟩) ∧
    straddled.slice? 11 25 = some "(a; SELECT 1) ".toList ∧
    (∃ token ∈ tokensIn straddled ⟨11, 25⟩, token.text = [';'] ∧ token.inQuotes = false) ∧
    (split .keep straddled).toOption =
      some ["DROP TABLE (a;".toList, "SELECT 1) IF EXISTS".toList] := by
  refine ⟨by decide +kernel, by decide, by decide +kernel, by decide +kernel, ?_,
    by decide +kernel⟩
  decide +kernel

end Search

end SqlScript
