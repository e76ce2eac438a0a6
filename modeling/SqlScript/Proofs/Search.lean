import SqlScript.Proofs.Capture
import SqlScript.Proofs.TokenPlace

/-!
# The first committed match

A pattern is plain if its literals are no quote marks and its variables have no constraint. A
committed match takes the blocks of such a pattern one by one (`Search.Committed`) : a literal takes
the next token, a variable before a literal takes what `Captured` gives it, and nothing is tried
twice. It starts at a token outside of quotes, with a literal (`Starts`).

An attempt to match comes to the committed match or finds that there is none (`exists_matchBlocks`,
by recursion on the blocks). What carries the recursion is that the next capture starts at the first
token left, outside of quotes of the pattern (`Ready`) : a literal that is no quote mark leaves it
so. Hence a search finds the first token at which a committed match starts, if there is one
(`search_finds_first`), and reports the extent, the tokens and the captures of that match
(`Reports`).
-/

namespace SqlScript

open List

variable {name text : Text} {boundary : Token}

/-- The block is a literal that is no quote mark, or a variable without a constraint. -/
def PatternBlock.Plain : PatternBlock → Prop
  | .literal text => text ≠ ['\''] ∧ text ≠ ['"']
  | .placeholder _ constraint => constraint = none

instance PatternBlock.decidablePlain : (block : PatternBlock) → Decidable block.Plain
  | .literal text => inferInstanceAs (Decidable (text ≠ ['\''] ∧ text ≠ ['"']))
  | .placeholder _ constraint => inferInstanceAs (Decidable (constraint = none))

namespace Parameters

/-- Taking one name away keeps the values of the others. -/
theorem get?_filter_ne (values : Parameters) {other : Text} (h : other ≠ name) :
    get? (values.filter fun entry => entry.1 != name) other = values.get? other := by
  induction values with
  | nil => rfl
  | cons entry values ih =>
    obtain ⟨key, value⟩ := entry
    simp only [get?] at ih ⊢
    by_cases hkey : key = name
    · subst hkey
      rw [filter_cons_of_neg (by simp), ih, lookup_cons, beq_false_of_ne h]
    · rw [filter_cons_of_pos (by simpa using hkey), lookup_cons, lookup_cons, ih]

theorem get?_insert (values : Parameters) (name value other : Text) :
    (values.insert name value).get? other =
      if other = name then some value else values.get? other := by
  by_cases hname : other = name
  · simp [get?, insert, hname]
  · rw [if_neg hname, ← get?_filter_ne values hname, insert, get?, lookup_cons,
      beq_false_of_ne hname]
    rfl

end Parameters

namespace Search

/-! ## Committed matches -/

/-- The blocks take tokens from the start of a list, each block the segment with its place. The
captures are the names of the variables with the text from the first token after the literal before
to the token at which the variable stops. -/
inductive Committed (sql : Text) :
    List PatternBlock → List Token → List (List Token) → List (Text × Text) → Prop where
  | done {later : List Token} : Committed sql [] later [] []
  | literal {text : Text} {blocks : List PatternBlock} {token : Token} {later : List Token}
    {segments : List (List Token)} {captures : List (Text × Text)} : token.is text = true →
    Committed sql blocks later segments captures →
    Committed sql (.literal text :: blocks) (token :: later) ([token] :: segments) captures
  | capture {name text value : Text} {blocks : List PatternBlock} {segment later : List Token}
    {first boundary : Token} {segments : List (List Token)} {captures : List (Text × Text)} :
    Captured text segment boundary → (segment ++ [boundary]).head? = some first →
    sql.slice? first.start boundary.start = some value →
    Committed sql blocks later segments captures →
    Committed sql (.placeholder name none :: .literal text :: blocks)
      (segment ++ boundary :: later) (segment :: [boundary] :: segments) ((name, value) :: captures)

/-- A committed match that starts with a literal, at a token outside of quotes. -/
structure Starts (sql : Text) (blocks : List PatternBlock) (tokens : List Token)
    (segments : List (List Token)) (captures : List (Text × Text)) : Prop where
  literal : ∃ text later, blocks = .literal text :: later
  outside : ∃ token, tokens.head? = some token ∧ token.inQuotes = false
  committed : Committed sql blocks tokens segments captures

/-- A committed match starts at the token with the index. -/
def StartsAt (sql : Text) (blocks : List PatternBlock) (index : Nat) : Prop :=
  ∃ segments captures, Starts sql blocks ((tokens sql).drop index) segments captures

/-- The match reports a committed match with these segments and captures. -/
structure Reports (sql : Text) (found : PatternMatch) (segments : List (List Token))
    (captures : List (Text × Text)) : Prop where
  start : (tokens sql)[found.startToken]?.map Token.start = some found.start
  stop : segments.flatten.getLast?.map Token.stop = some found.stop
  tokens : (tokens sql).filter (fun token => found.start ≤ token.start && token.stop ≤ found.stop) =
    segments.flatten
  bindings : ∀ name, found.bindings.get? name = captures.reverse.lookup name

variable {blocks : List PatternBlock} {segments : List (List Token)} {captures : List (Text × Text)}

/-- The segments are put together to the tokens from the start on. -/
theorem Committed.exists_append {sql : Text} {tokens : List Token}
    (h : Committed sql blocks tokens segments captures) :
    ∃ rest, tokens = segments.flatten ++ rest := by
  induction h with
  | @done later => exact ⟨later, rfl⟩
  | literal _ _ ih =>
    obtain ⟨rest, rfl⟩ := ih
    exact ⟨rest, by simp⟩
  | capture _ _ _ _ ih =>
    obtain ⟨rest, rfl⟩ := ih
    exact ⟨rest, by simp⟩

/-! ## An attempt to match -/

/-- The end of the last token of a run, or `start` if there is none. -/
def endOf (start : Nat) (run : List Token) : Nat :=
  (run.getLast?.map Token.stop).getD start

theorem endOf_append_cons (start : Nat) (segment run : List Token) (token : Token) :
    endOf start (segment ++ token :: run) = endOf token.stop run := by
  rw [endOf, endOf, getLast?_append, getLast?_cons]
  cases run.getLast? <;> rfl

/-- What an attempt is when the tokens are left for it : nothing of the pattern's quotes is open,
and the next capture starts at the first token. -/
structure Ready (sql : Text) (attempt : Attempt) (tokens : List Token) : Prop where
  laid : Laid sql tokens
  captureStart : attempt.captureStart = startOf sql tokens
  outside : attempt.inPatternQuote = false

/-- The attempt `finished` is `attempt` after the segments and captures. -/
structure Finished (attempt finished : Attempt) (segments : List (List Token))
    (captures : List (Text × Text)) : Prop where
  stop : finished.stop = endOf attempt.stop segments.flatten
  bindings : ∀ name, finished.bindings.get? name =
    (captures.reverse.lookup name).or (attempt.bindings.get? name)

/-- The result is what comes of the committed match, or none if there is no such match. -/
inductive Decided (committed : List (List Token) → List (Text × Text) → Prop) (attempt : Attempt) :
    Option Attempt → Prop where
  | found {segments : List (List Token)} {captures : List (Text × Text)} {finished : Attempt} :
    committed segments captures → Finished attempt finished segments captures →
    Decided committed attempt (some finished)
  | absent : (∀ segments captures, ¬ committed segments captures) → Decided committed attempt none

theorem isQuote_eq_false_of_is {token : Token}
    (hplain : (PatternBlock.literal text).Plain) (his : token.is text) : token.isQuote = false := by
  cases hquote : token.isQuote with
  | false => rfl
  | true =>
    simp only [Token.isQuote, Bool.or_eq_true, beq_iff_eq] at hquote
    simp only [Token.is, Text.eqFolded, beq_iff_eq] at his
    have heq : ∀ mark : Char, mark.toLower = mark → mark.isLower = false → token.text = [mark] →
        text = [mark] := by
      intro mark hsmall hlower htext
      rw [htext, Text.toLowerAscii, map_singleton, hsmall, eq_comm, Text.toLowerAscii,
        map_eq_singleton_iff] at his
      obtain ⟨c, rfl, hc⟩ := his
      rw [eq_of_toLower_eq hlower hc]
    rcases hquote with hquote | hquote
    · exact absurd (heq _ (by decide) (by decide) hquote) hplain.1
    · exact absurd (heq _ (by decide) (by decide) hquote) hplain.2

variable {sql : Text} {attempt : Attempt} {run later : List Token} {token : Token}

theorem Ready.afterLiteral (h : Ready sql attempt run) (hquote : token.isQuote = false)
    (hlater : later.Sublist run) : Ready sql (attempt.afterLiteral sql token later) later where
  laid := h.laid.sublist hlater
  captureStart := rfl
  outside := by simp [Attempt.afterLiteral, h.outside, hquote]

theorem Decided.literal {result : Option Attempt} (his : token.is text)
    (h : Decided (Committed sql blocks later) (attempt.afterLiteral sql token later) result) :
    Decided (Committed sql (.literal text :: blocks) (token :: later)) attempt result := by
  cases h with
  | found hcommitted hfinished =>
    refine .found (.literal his hcommitted) ⟨?_, hfinished.bindings⟩
    rw [hfinished.stop]
    exact (endOf_append_cons attempt.stop [] _ token).symm
  | absent hnone =>
    refine .absent fun segments captures hcommitted => ?_
    cases hcommitted with
    | literal _ hcommitted => exact hnone _ _ hcommitted

/-- A variable takes what it captures. -/
theorem Decided.capture {value : Text} {segment : List Token} {first : Token}
    {result : Option Attempt} (hcaptured : Captured text segment boundary)
    (hfirst : (segment ++ [boundary]).head? = some first)
    (hvalue : sql.slice? first.start boundary.start = some value)
    (h : Decided (Committed sql blocks later)
      (Attempt.afterLiteral { attempt with bindings := attempt.bindings.insert name value } sql
        boundary later) result) :
    Decided (Committed sql (.placeholder name none :: .literal text :: blocks)
      (segment ++ boundary :: later)) attempt result := by
  cases h with
  | found hcommitted hfinished =>
    refine .found (.capture hcaptured hfirst hvalue hcommitted) ⟨?_, fun other => ?_⟩
    · rw [hfinished.stop]
      exact (endOf_append_cons attempt.stop segment _ boundary).symm
    · have hinsert : (attempt.bindings.insert name value).get? other =
          (List.lookup other [(name, value)]).or (attempt.bindings.get? other) := by
        rw [Parameters.get?_insert]
        by_cases hname : other = name <;> simp [hname]
      rw [hfinished.bindings, reverse_cons, lookup_append, Option.or_assoc, ← hinsert]
      rfl
  | absent hnone =>
    refine .absent fun segments captures hcommitted => ?_
    generalize hrun : segment ++ boundary :: later = run at hcommitted
    cases hcommitted with
    | capture hcaptured' _ _ hcommitted =>
      obtain ⟨rfl, rfl⟩ := hcaptured.unique hcaptured' hrun
      exact hnone _ _ hcommitted

/-- What a capture takes lies between two places of the text. -/
theorem Ready.exists_slice {segment : List Token}
    (h : Ready sql attempt (segment ++ boundary :: later)) : ∃ first value,
      (segment ++ [boundary]).head? = some first ∧
      sql.slice? first.start boundary.start = some value ∧
      sql.slice (min attempt.captureStart boundary.start) boundary.start = .ok value := by
  obtain ⟨first, tail, hrun⟩ := exists_cons_of_ne_nil
    (append_ne_nil_of_right_ne_nil segment (cons_ne_nil boundary []))
  have htokens : segment ++ boundary :: later = first :: (tail ++ later) := by
    rw [← cons_append, ← hrun, append_assoc, singleton_append]
  have hlaid := h.laid
  rw [htokens] at hlaid
  have hboundary : boundary ∈ first :: (tail ++ later) := by rw [← htokens]; simp
  have hle := hlaid.start_le hboundary
  obtain ⟨value, hvalue⟩ := Text.exists_slice?_of_isPlace
    (hlaid.isPlace_start mem_cons_self) (hlaid.isPlace_start hboundary) hle
  refine ⟨first, value, by rw [hrun]; rfl, hvalue, ?_⟩
  rw [h.captureStart, htokens, startOf, Nat.min_eq_left hle]
  exact Text.slice_eq_ok_iff.2 hvalue

theorem Ready.insert (h : Ready sql attempt run) (name value : Text) :
    Ready sql { attempt with bindings := attempt.bindings.insert name value } run :=
  ⟨h.laid, h.captureStart, h.outside⟩

theorem matchBlocks_capture {value : Text}
    (hboundary : boundary? attempt.inPatternQuote text [] run = some (boundary, later))
    (hslice : sql.slice (min attempt.captureStart boundary.start) boundary.start = .ok value) :
    matchBlocks sql (.placeholder name none :: .literal text :: blocks) attempt run =
      matchBlocks sql blocks
        (Attempt.afterLiteral { attempt with bindings := attempt.bindings.insert name value } sql
          boundary later) later := by
  rw [matchBlocks, hboundary]
  simp only [hslice, ok_bind]
  rfl

theorem sublist_append_cons (segment : List Token) (token : Token) (later : List Token) :
    later.Sublist (segment ++ token :: later) :=
  (sublist_cons_self token later).trans (sublist_append_right segment _)

/-- An attempt to match comes to the committed match, or finds that there is none. -/
theorem exists_matchBlocks :
    ∀ {blocks : List PatternBlock} {attempt : Attempt} {tokens : List Token},
      (∀ block ∈ blocks, block.Plain) → Ready sql attempt tokens →
      ∃ result, matchBlocks sql blocks attempt tokens = .ok result ∧
        Decided (Committed sql blocks tokens) attempt result
  | [], attempt, tokens, _, _ => ⟨some attempt, rfl, .found .done ⟨rfl, fun _ => rfl⟩⟩
  | .literal text :: blocks, attempt, [], _, _ =>
    ⟨none, rfl, .absent fun _ _ hcommitted => nomatch hcommitted⟩
  | .literal text :: blocks, attempt, token :: later, hplain, hready => by
    rw [forall_mem_cons] at hplain
    cases his : token.is text with
    | false =>
      refine ⟨none, by simp [matchBlocks, his], .absent fun segments captures hcommitted => ?_⟩
      cases hcommitted with
      | literal his' _ => simp [his'] at his
    | true =>
      have hquote := isQuote_eq_false_of_is hplain.1 his
      obtain ⟨result, hresult, hdecided⟩ := exists_matchBlocks hplain.2
        (hready.afterLiteral hquote (sublist_cons_self token later))
      exact ⟨result, by simpa [matchBlocks, his] using hresult, hdecided.literal his⟩
  | .placeholder name constraint :: .literal text :: blocks, attempt, tokens, hplain, hready => by
    simp only [forall_mem_cons] at hplain
    obtain ⟨rfl, htext, hplain⟩ := hplain
    cases hboundary : boundary? attempt.inPatternQuote text [] tokens with
    | none =>
      refine ⟨none, by simp [matchBlocks, hboundary], .absent fun _ _ hcommitted => ?_⟩
      rw [hready.outside] at hboundary
      cases hcommitted with
      | capture hcaptured _ _ _ =>
        rw [boundary?_eq_some_iff.2 ⟨_, rfl, hcaptured⟩] at hboundary
        simp at hboundary
    | some found =>
      obtain ⟨boundary, later⟩ := found
      have hstop := hboundary
      rw [hready.outside] at hstop
      obtain ⟨segment, rfl, hcaptured⟩ := boundary?_eq_some_iff.1 hstop
      obtain ⟨first, value, hfirst, hvalue, hslice⟩ := hready.exists_slice
      have hquote := isQuote_eq_false_of_is htext hcaptured.stops
      obtain ⟨result, hresult, hdecided⟩ := exists_matchBlocks hplain
        ((hready.insert name value).afterLiteral hquote
          (sublist_append_cons segment boundary later))
      exact ⟨result, (matchBlocks_capture hboundary hslice).trans hresult,
        hdecided.capture hcaptured hfirst hvalue⟩
  | [.placeholder name constraint], attempt, tokens, hplain, _ => by
    obtain rfl : constraint = none := hplain _ mem_cons_self
    exact ⟨none, rfl, .absent fun _ _ hcommitted => nomatch hcommitted⟩
  | .placeholder name constraint :: .placeholder _ _ :: blocks, attempt, tokens, hplain, _ => by
    obtain rfl : constraint = none := hplain _ mem_cons_self
    exact ⟨none, rfl, .absent fun _ _ hcommitted => nomatch hcommitted⟩

/-! ## The first token at which a match starts -/

/-- The attempt at a token, before anything is matched. -/
def attemptAt (token : Token) : Attempt :=
  ⟨token.start, token.start, false, []⟩

theorem ready_attemptAt (hlaid : Laid sql (token :: later)) :
    Ready sql (attemptAt token) (token :: later) :=
  ⟨hlaid, rfl, rfl⟩

/-- Outside of quotes the first literal is matched as any other. -/
theorem matchAt_of_outside (text : Text) (blocks : List PatternBlock)
    (houtside : token.inQuotes = false) : matchAt sql (.literal text :: blocks) token later =
      matchBlocks sql (.literal text :: blocks) (attemptAt token) (token :: later) := by
  simp [matchAt, matchBlocks, attemptAt, houtside]

theorem exists_matchAt (hplain : ∀ block ∈ blocks, block.Plain)
    (hlaid : Laid sql (token :: later)) : ∃ result, matchAt sql blocks token later = .ok result ∧
      Decided (Starts sql blocks (token :: later)) (attemptAt token) result := by
  cases blocks with
  | nil => exact ⟨none, rfl, .absent fun _ _ hstarts => by simpa using hstarts.literal⟩
  | cons block blocks =>
    cases block with
    | placeholder name constraint =>
      obtain rfl : constraint = none := hplain _ mem_cons_self
      exact ⟨none, rfl, .absent fun _ _ hstarts => by simpa using hstarts.literal⟩
    | literal text =>
      cases hquotes : token.inQuotes with
      | true =>
        refine ⟨none, by simp [matchAt, hquotes], .absent fun _ _ hstarts => ?_⟩
        simpa [hquotes] using hstarts.outside
      | false =>
        obtain ⟨result, hresult, hdecided⟩ := exists_matchBlocks hplain (ready_attemptAt hlaid)
        refine ⟨result, (matchAt_of_outside text blocks hquotes).trans hresult, ?_⟩
        cases hdecided with
        | found hcommitted hfinished =>
          exact .found ⟨⟨text, blocks, rfl⟩, ⟨token, rfl, hquotes⟩, hcommitted⟩ hfinished
        | absent hnone => exact .absent fun _ _ hstarts => hnone _ _ hstarts.committed

/-- The first token of a match is the token at which it starts. -/
theorem Starts.exists_flatten (h : Starts sql blocks (token :: later) segments captures) :
    ∃ taken, segments.flatten = token :: taken := by
  obtain ⟨text, blocks, rfl⟩ := h.literal
  cases h.committed with
  | @literal _ _ _ _ segments => exact ⟨segments.flatten, rfl⟩

/-- A finished attempt is reported as it is. -/
theorem Starts.reports {finished : Attempt} {index : Nat}
    (h : Starts sql blocks (token :: later) segments captures)
    (hfinished : Finished (attemptAt token) finished segments captures)
    (hindex : (tokens sql).drop index = token :: later) :
    Reports sql ⟨token.start, finished.stop, index, finished.bindings⟩ segments captures := by
  obtain ⟨taken, htaken⟩ := h.exists_flatten
  obtain ⟨rest, hrest⟩ := h.committed.exists_append
  have hlast : segments.flatten.getLast? = some (taken.getLast?.getD token) := by
    rw [htaken, getLast?_cons]
  have hstop : finished.stop = (taken.getLast?.getD token).stop := by
    rw [hfinished.stop, endOf, hlast]
    rfl
  have htokens : tokens sql = (tokens sql).take index ++ (segments.flatten ++ rest) := by
    rw [← hrest, ← hindex, take_append_drop]
  refine ⟨?_, ?_, ?_, fun name => ?_⟩
  · rw [← head?_drop, hindex]
    rfl
  · rw [hlast, hstop]
    rfl
  · have hlaid := laid_tokens sql
    rw [htokens] at hlaid ⊢
    rw [hstop]
    exact hlaid.filter_within (by rw [htaken]; rfl) hlast
  · rw [hfinished.bindings name]
    exact Option.or_none

/-- The match is the first committed match at token `first` or later, or there is none. -/
inductive Located (sql : Text) (blocks : List PatternBlock) (first : Nat) :
    Option PatternMatch → Prop where
  | found {segments : List (List Token)} {captures : List (Text × Text)} {found : PatternMatch} :
    first ≤ found.startToken → (∀ i, first ≤ i → i < found.startToken → ¬ StartsAt sql blocks i) →
    Starts sql blocks ((tokens sql).drop found.startToken) segments captures →
    Reports sql found segments captures → Located sql blocks first (some found)
  | absent : (∀ i, first ≤ i → ¬ StartsAt sql blocks i) → Located sql blocks first none

/-- Where no match starts, the first match is one of those that start later. -/
theorem Located.of_succ {first : Nat} {result : Option PatternMatch}
    (hnone : ¬ StartsAt sql blocks first) (h : Located sql blocks (first + 1) result) :
    Located sql blocks first result := by
  cases h with
  | found hle hleast hstarts hreports =>
    refine .found (by omega) (fun i hi hlt => ?_) hstarts hreports
    rcases Nat.eq_or_lt_of_le hi with rfl | hi
    · exact hnone
    · exact hleast i hi hlt
  | absent hall =>
    refine .absent fun i hi => ?_
    rcases Nat.eq_or_lt_of_le hi with rfl | hi
    · exact hnone
    · exact hall i hi

theorem exists_firstFrom (hplain : ∀ block ∈ blocks, block.Plain) (run : List Token) {index : Nat}
    (hindex : (tokens sql).drop index = run) :
    ∃ result, firstFrom sql blocks index run = .ok result ∧ Located sql blocks index result := by
  induction run generalizing index with
  | nil =>
    refine ⟨none, rfl, .absent ?_⟩
    rintro i hi ⟨segments, captures, hstarts⟩
    obtain ⟨token, htoken, -⟩ := hstarts.outside
    have hlength := drop_eq_nil_iff.1 hindex
    rw [drop_eq_nil_of_le (Nat.le_trans hlength hi)] at htoken
    simp at htoken
  | cons token later ih =>
    have hlaid : Laid sql (token :: later) := by
      rw [← hindex]
      exact (laid_tokens sql).sublist (drop_sublist index _)
    obtain ⟨result, hresult, hdecided⟩ := exists_matchAt hplain hlaid
    cases hdecided with
    | found hstarts hfinished =>
      have hreports := hstarts.reports hfinished hindex
      rw [← hindex] at hstarts
      exact ⟨_, by rw [firstFrom, hresult]; rfl, .found (Nat.le_refl _)
        (fun i hi hlt => absurd hlt (Nat.not_lt.2 hi)) hstarts hreports⟩
    | absent hnone =>
      have hnext : (tokens sql).drop (index + 1) = later := by
        rw [← drop_drop, hindex]; rfl
      obtain ⟨result, hresult', hlocated⟩ := ih hnext
      refine ⟨result, by rw [firstFrom, hresult]; exact hresult', hlocated.of_succ ?_⟩
      rintro ⟨segments, captures, hstarts⟩
      rw [hindex] at hstarts
      exact hnone segments captures hstarts

/-- A search for a plain pattern returns a match just if a committed match starts at token `first`
or later. The match it returns is the one that starts first. -/
theorem search_finds_first (sql : Text) (pattern : Pattern)
    (hplain : ∀ block ∈ pattern.blocks, block.Plain) (first : Nat) :
    ∃ result, search sql (tokens sql) pattern first = .ok result ∧
      (result.isSome = true ↔ ∃ i, first ≤ i ∧ StartsAt sql pattern.blocks i) ∧
      ∀ found, result = some found →
        first ≤ found.startToken ∧
        (∀ i, first ≤ i → StartsAt sql pattern.blocks i → found.startToken ≤ i) ∧
        ∃ segments captures,
          Starts sql pattern.blocks ((tokens sql).drop found.startToken) segments captures ∧
          Reports sql found segments captures := by
  obtain ⟨result, hresult, hlocated⟩ :=
    exists_firstFrom hplain _ (rfl : (tokens sql).drop first = _)
  refine ⟨result, hresult, ?_⟩
  cases hlocated with
  | found hle hleast hstarts hreports =>
    refine ⟨⟨fun _ => ⟨_, hle, _, _, hstarts⟩, fun _ => rfl⟩, ?_⟩
    rintro _ ⟨⟩
    refine ⟨hle, fun i hi hat => Nat.le_of_not_lt fun hlt => hleast i hi hlt hat, _, _, hstarts,
      hreports⟩
  | absent hall =>
    refine ⟨⟨nofun, ?_⟩, nofun⟩
    rintro ⟨i, hi, hat⟩
    exact absurd hat (hall i hi)

/-- The columns of a query, by a pattern. -/
def columns : Pattern where
  source := "select @columns from".toList
  blocks := [.literal "select".toList, .placeholder "columns".toList none, .literal "from".toList]

/-- Two statements, the first of which ends before a `from` comes. -/
def statements : Text :=
  "SELECT a; SELECT (b; 'c from)'), d FROM t".toList

theorem search_finds_first_columns :
    (Pattern.compile columns.source).toOption = some columns ∧
    (∀ block ∈ columns.blocks, block.Plain) ∧
    (search statements (tokens statements) columns 0).toOption =
      some (some ⟨10, 39, 3, [("columns".toList, "(b; 'c from)'), d ".toList)]⟩) ∧
    (∀ i, StartsAt statements columns.blocks i → 3 ≤ i) ∧
    ∃ segments captures,
      Starts statements columns.blocks ((tokens statements).drop 3) segments captures ∧
      captures.reverse.lookup "columns".toList = some "(b; 'c from)'), d ".toList := by
  have hcompile : (Pattern.compile columns.source).toOption = some columns := by decide +kernel
  have hplain : ∀ block ∈ columns.blocks, block.Plain := by decide
  have hsearch : (search statements (tokens statements) columns 0).toOption =
      some (some ⟨10, 39, 3, [("columns".toList, "(b; 'c from)'), d ".toList)]⟩) := by
    decide +kernel
  refine ⟨hcompile, hplain, hsearch, ?_⟩
  obtain ⟨result, hresult, -, hfound⟩ := search_finds_first statements columns hplain 0
  rw [hresult] at hsearch
  obtain ⟨-, hleast, segments, captures, hstarts, hreports⟩ := hfound _ (Option.some.inj hsearch)
  exact ⟨fun i => hleast i (Nat.zero_le i), segments, captures, hstarts,
    (hreports.bindings _).symm⟩

end Search

end SqlScript
