import SqlScript.Proofs.CaptureScope
import SqlScript.Proofs.KeySearch

/-!
# A variable between quote marks

In the pattern `f('@x')` the variable stands between two quote marks, and is meant to take what
stands between the marks of one literal of the script. The matcher does not look at the flags of the
tokens there. It counts on its stack of open marks, and that reacts to the marks of the other kind,
which mean nothing inside of a literal. So it takes the literal just if it has evenly many of them
(`Evenly`); if not, it runs past the closing mark (`boundary?_quoted`).

What a match takes for each block of its pattern is said by `Takes`, one block at a time, for all
patterns. The marks of the pattern come in pairs (`QuotePaired`), and so no mark of the pattern is
open before a pair. Whether the first mark of a pair opens a literal of the script depends on what
was taken before. It does if every variable before it has a literal to stop at and the pairs before
it took one literal each (`Takes.exists_halfway`).
-/

namespace SqlScript

open List Text Token

/-- Whether the block is a quote mark. -/
def PatternBlock.isMark : PatternBlock → Bool
  | .literal text => text == ['\''] || text == ['"']
  | .placeholder _ _ => false

namespace Search

/-! ## Quoted literals of a script -/

/-- The marks and the tokens between them are a quoted literal of the script. -/
structure LiteralAt (sql : Text) (opening : Token) (inside : List Token) (closing : Token) :
    Prop where
  placed : ∃ front rest, tokens sql = front ++ opening :: (inside ++ closing :: rest)
  opens : opening.isQuote = true ∧ opening.inQuotes = false
  between : ∀ token ∈ inside, token.text ≠ opening.text ∧ token.inQuotes = true
  closes : closing.text = opening.text ∧ closing.inQuotes = true

/-- The number of quote marks among the tokens is even. Between the marks of a literal these are
marks of the other kind. -/
def Evenly (inside : List Token) : Prop :=
  inside.countP Token.isQuote % 2 = 0

instance decidableEvenly (inside : List Token) : Decidable (Evenly inside) :=
  inferInstanceAs (Decidable (_ = _))

theorem evenly_cons (token : Token) (inside : List Token) :
    Evenly (token :: inside) ↔ (token.isQuote ↔ ¬ Evenly inside) := by
  unfold Evenly
  cases hquote : token.isQuote with
  | false => simp [hquote]
  | true =>
    simp only [countP_cons_of_pos hquote, true_iff]
    omega

/-! ## The end of a variable between quote marks -/

theorem is_mark_iff {mark : Char} (hmark : Text.isQuoteMark mark) {token : Token} :
    token.is [mark] ↔ token.text = [mark] := by
  have hsmall : mark.isLower = false ∧ mark.toLower = mark := by
    simp only [Text.isQuoteMark, Bool.or_eq_true, beq_iff_eq] at hmark
    rcases hmark with rfl | rfl <;> decide
  exact Token.is_singleton_iff hsmall.1 hsmall.2

/-- The mark of the other kind. -/
def otherMark (mark : Char) : Char :=
  if mark = '\'' then '"' else '\''

section Between

variable {mark : Char} {token : Token}

theorem isQuote_of_mark (hmark : isQuoteMark mark) (htext : token.text = [mark]) :
    token.isQuote := by
  simpa [isQuote, isQuoteMark, htext] using hmark

theorem isQuote_iff_of_ne (hmark : isQuoteMark mark) (hne : token.text ≠ [mark]) :
    token.isQuote ↔ token.text = [otherMark mark] := by
  simp only [isQuoteMark, Bool.or_eq_true, beq_iff_eq] at hmark
  rcases hmark with rfl | rfl <;> simp [isQuote, otherMark, hne]

/-- Between quote marks of the pattern only marks of the other kind count: they are opened and
closed in turns. -/
theorem openAfter_between (hmark : isQuoteMark mark) (hne : token.text ≠ [mark]) :
    openAfter true [] token = (if token.isQuote then [otherMark mark] else []) ∧
    openAfter true [otherMark mark] token = (if token.isQuote then [] else [otherMark mark]) := by
  have hother : isQuoteMark (otherMark mark) := by
    unfold otherMark
    split <;> decide
  have hiff := isQuote_iff_of_ne hmark hne
  cases hquote : token.isQuote with
  | true => simp [openAfter, hquote, hother, hiff.1 hquote]
  | false =>
    have htext : token.text ≠ [otherMark mark] := by
      intro htext
      rw [hiff.2 htext] at hquote
      cases hquote
    simp [openAfter, hquote, hother, htext]

/-- Tokens other than the mark do not end the variable, and leave a mark of the other kind open if
there are oddly many of them. -/
theorem boundary?_between (hmark : isQuoteMark mark) {inside : List Token}
    (hinside : ∀ token ∈ inside, token.text ≠ [mark]) (rest : List Token) :
    boundary? true [mark] [] (inside ++ rest) =
        boundary? true [mark] (if Evenly inside then [] else [otherMark mark]) rest ∧
      boundary? true [mark] [otherMark mark] (inside ++ rest) =
        boundary? true [mark] (if Evenly inside then [otherMark mark] else []) rest := by
  induction inside with
  | nil => exact ⟨rfl, rfl⟩
  | cons token inside ih =>
    obtain ⟨hne, hinside⟩ := forall_mem_cons.1 hinside
    have his : token.is [mark] = false := by simpa using mt (is_mark_iff hmark).1 hne
    obtain ⟨hclosed, hopen⟩ := openAfter_between hmark hne
    obtain ⟨ihclosed, ihopen⟩ := ih hinside
    simp only [evenly_cons, cons_append, boundary?, his, hclosed, hopen, Bool.and_false,
      Bool.false_and, Bool.not_true, Bool.false_eq_true, if_false]
    cases token.isQuote <;> simp [ihclosed, ihopen]

theorem length_lt_of_boundary? {inPatternQuote : Bool} {text : Text} {opened : List Char}
    {run later : List Token} {boundary : Token}
    (h : boundary? inPatternQuote text opened run = some (boundary, later)) :
    later.length < run.length := by
  obtain ⟨segment, rfl, -⟩ := exists_append_of_boundary? h
  simp only [length_append, length_cons]
  omega

/-- Up to the first mark. -/
theorem exists_first_mark {boundary : Token} (hboundary : boundary.text = [mark])
    (segment : List Token) : ∃ inside closing, closing.text = [mark] ∧
      (∀ token ∈ inside, token.text ≠ [mark]) ∧
      (segment = inside ∧ boundary = closing ∨ ∃ more, segment = inside ++ closing :: more) := by
  induction segment with
  | nil => exact ⟨[], boundary, hboundary, by simp, .inl ⟨rfl, rfl⟩⟩
  | cons token segment ih =>
    by_cases htext : token.text = [mark]
    · exact ⟨[], token, htext, by simp, .inr ⟨segment, rfl⟩⟩
    · obtain ⟨inside, closing, hclosing, hinside, hcases⟩ := ih
      refine ⟨token :: inside, closing, hclosing, forall_mem_cons.2 ⟨htext, hinside⟩, ?_⟩
      rcases hcases with ⟨rfl, rfl⟩ | ⟨more, rfl⟩
      · exact .inl ⟨rfl, rfl⟩
      · exact .inr ⟨more, rfl⟩

/-- What a variable between quote marks takes, up to the token `boundary`. It ends at the first mark
just if evenly many marks of the other kind stand before that. -/
theorem boundary?_quoted (hmark : isQuoteMark mark) {segment later : List Token}
    {boundary : Token} (hboundary : boundary.text = [mark])
    (h : boundary? true [mark] [] (segment ++ boundary :: later) = some (boundary, later)) :
    ∃ inside closing rest, segment ++ boundary :: later = inside ++ closing :: rest ∧
      closing.text = [mark] ∧ (∀ token ∈ inside, token.text ≠ [mark]) ∧
      ((segment = inside ∧ boundary = closing) ↔ Evenly inside) ∧
      (¬ Evenly inside → ∃ more, segment = inside ++ closing :: more) := by
  obtain ⟨inside, closing, hclosing, hinside, hcases⟩ := exists_first_mark hboundary segment
  have hrun : ∃ rest, segment ++ boundary :: later = inside ++ closing :: rest := by
    rcases hcases with ⟨rfl, rfl⟩ | ⟨more, rfl⟩
    · exact ⟨later, rfl⟩
    · exact ⟨more ++ boundary :: later, by simp⟩
  obtain ⟨rest, hrun⟩ := hrun
  rw [hrun, (boundary?_between hmark hinside (closing :: rest)).1] at h
  have hiff : (segment = inside ∧ boundary = closing) ↔ Evenly inside := by
    constructor
    · rintro ⟨rfl, rfl⟩
      by_contra hodd
      obtain ⟨-, rfl⟩ := List.cons.inj (append_cancel_left hrun)
      -- an open mark makes the search go past the token that it stops at
      rw [if_neg hodd, boundary?] at h
      exact absurd (length_lt_of_boundary? (by simpa using h)) (Nat.lt_irrefl _)
    · intro heven
      rw [if_pos heven, boundary?, if_pos (by simpa using (is_mark_iff hmark).2 hclosing)] at h
      cases h
      exact ⟨append_cancel_right hrun, rfl⟩
  refine ⟨inside, closing, rest, hrun, hclosing, hinside, hiff, fun hodd => ?_⟩
  exact hcases.resolve_left (mt hiff.1 hodd)

end Between

/-! ## What each block of a pattern takes -/

/-- The blocks take tokens from the start of a list, each block the segment with its place, and
bring the attempt on. The first literal of a pattern takes no token inside of quotes. A variable
that stands first, or has no literal directly after it, takes what its constraint matches. -/
inductive Takes (sql : Text) :
    Bool → List PatternBlock → Attempt → List Token → List (List Token) → Attempt → Prop where
  | done {started : Bool} {attempt : Attempt} {later : List Token} :
    Takes sql started [] attempt later [] attempt
  | literal {started : Bool} {text : Text} {blocks : List PatternBlock} {attempt finished : Attempt}
    {token : Token} {later : List Token} {segments : List (List Token)} : token.is text = true →
    (started = true ∨ token.inQuotes = false) →
    Takes sql true blocks (attempt.afterLiteral sql token later) later segments finished →
    Takes sql started (.literal text :: blocks) attempt (token :: later) ([token] :: segments)
      finished
  | capture {name text value : Text} {constraint : Option Constraint} {blocks : List PatternBlock}
    {attempt finished : Attempt} {segment later : List Token} {boundary : Token}
    {segments : List (List Token)} :
    boundary? attempt.inPatternQuote text [] (segment ++ boundary :: later) =
      some (boundary, later) →
    sql.slice (min attempt.captureStart boundary.start) boundary.start = .ok value →
    constraint.all (·.matchesWhole value.trimEnd) = true →
    Takes sql true (.literal text :: blocks)
      { attempt with bindings := attempt.bindings.insert name value } (boundary :: later) segments
      finished →
    Takes sql true (.placeholder name constraint :: .literal text :: blocks) attempt
      (segment ++ boundary :: later) (segment :: segments) finished
  | lead {started : Bool} {name : Text} {constraint : Constraint} {blocks : List PatternBlock}
    {attempt attempt' finished : Attempt} {segment later : List Token}
    {segments : List (List Token)} :
    (started = true → blocks.head?.all PatternBlock.isPlaceholder = true) →
    takeLead sql name constraint attempt (segment ++ later) = .ok (some (attempt', later)) →
    Takes sql true blocks attempt' later segments finished →
    Takes sql started (.placeholder name (some constraint) :: blocks) attempt (segment ++ later)
      (segment :: segments) finished

/-- The match is made up of the segments, one for each block of the pattern. -/
structure MadeOf (sql : Text) (pattern : Pattern) (found : PatternMatch)
    (segments : List (List Token)) : Prop where
  takes : ∃ token later finished, (tokens sql).drop found.startToken = token :: later ∧
    Takes sql false pattern.blocks (attemptAt token) (token :: later) segments finished ∧
    found = ⟨token.start, finished.stop, found.startToken, finished.bindings⟩

section Attempts

variable {sql : Text} {attempt finished : Attempt} {run later : List Token}
  {segments : List (List Token)} {blocks : List PatternBlock}

/-- What a variable takes by its constraint. -/
theorem takeLead_cases {name : Text} {constraint : Constraint} {attempt' : Attempt}
    (h : takeLead sql name constraint attempt run = .ok (some (attempt', later))) :
    (∃ segment, run = segment ++ later) ∧ attempt'.inPatternQuote = attempt.inPatternQuote ∧
      ∃ value, attempt'.bindings = attempt.bindings.insert name value := by
  cases run with
  | nil => cases h
  | cons token run =>
    rw [takeLead] at h
    obtain ⟨rest, -, h⟩ := exists_of_bind_eq_ok h
    cases hmatch : constraint.matchLead? rest with
    | none =>
      rw [hmatch] at h
      cases h
    | some size =>
      rw [hmatch] at h
      obtain ⟨value, -, h⟩ := exists_of_bind_eq_ok h
      cases Except.ok.inj h
      exact ⟨⟨_, (takeWhile_append_dropWhile).symm⟩, rfl, value, rfl⟩

theorem exists_takes_lead {started : Bool} {name : Text} {constraint : Constraint}
    {attempt' : Attempt} (hstarted : started → blocks.head?.all PatternBlock.isPlaceholder)
    (htaken : takeLead sql name constraint attempt run = .ok (some (attempt', later)))
    (h : ∃ segments, Takes sql true blocks attempt' later segments finished) :
    ∃ segments, Takes sql started (.placeholder name (some constraint) :: blocks) attempt run
      segments finished := by
  obtain ⟨segments, htakes⟩ := h
  obtain ⟨⟨segment, rfl⟩, -⟩ := takeLead_cases htaken
  exact ⟨segment :: segments, .lead hstarted htaken htakes⟩

/-- An attempt that succeeds takes a segment for each block. -/
theorem exists_takes_of_matchBlocks :
    ∀ {blocks : List PatternBlock} {attempt : Attempt} {run : List Token},
      matchBlocks sql blocks attempt run = .ok (some finished) →
      ∃ segments, Takes sql true blocks attempt run segments finished
  | [], attempt, run, h => by
    cases h
    exact ⟨[], .done⟩
  | .literal text :: blocks, attempt, [], h => by cases h
  | .literal text :: blocks, attempt, token :: later, h => by
    rw [matchBlocks] at h
    split at h
    · rename_i his
      obtain ⟨segments, htakes⟩ := exists_takes_of_matchBlocks h
      exact ⟨_, .literal his (.inl rfl) htakes⟩
    · cases h
  | .placeholder name constraint :: .literal text :: blocks, attempt, run, h => by
    rw [matchBlocks] at h
    split at h
    · cases h
    · rename_i boundary later hboundary
      obtain ⟨value, hvalue, h⟩ := exists_of_bind_eq_ok h
      split at h
      · rename_i hconstraint
        obtain ⟨segments, htakes⟩ := exists_takes_of_matchBlocks h
        obtain ⟨segment, rfl, his⟩ := exists_append_of_boundary? hboundary
        exact ⟨_, .capture hboundary hvalue hconstraint (.literal his (.inl rfl) htakes)⟩
      · cases h
  | [.placeholder name (some constraint)], attempt, run, h => by
    obtain ⟨- | ⟨attempt', later⟩, htaken, h⟩ := exists_of_bind_eq_ok h
    · cases h
    · exact exists_takes_lead (fun _ => rfl) htaken (exists_takes_of_matchBlocks h)
  | .placeholder name (some constraint) :: .placeholder _ _ :: blocks, attempt, run, h => by
    obtain ⟨- | ⟨attempt', later⟩, htaken, h⟩ := exists_of_bind_eq_ok h
    · cases h
    · exact exists_takes_lead (fun _ => rfl) htaken (exists_takes_of_matchBlocks h)
  | [.placeholder name none], attempt, run, h => by cases h
  | .placeholder name none :: .placeholder _ _ :: blocks, attempt, run, h => by cases h

theorem exists_takes_of_matchAt {token : Token}
    (h : matchAt sql blocks token later = .ok (some finished)) :
    ∃ segments, Takes sql false blocks (attemptAt token) (token :: later) segments finished := by
  rcases blocks with - | ⟨text | ⟨name, - | constraint⟩, blocks⟩
  · cases h
  · rw [matchAt] at h
    split at h
    · rename_i hfirst
      simp only [Bool.and_eq_true, Bool.not_eq_true'] at hfirst
      obtain ⟨segments, htakes⟩ := exists_takes_of_matchBlocks h
      exact ⟨_, .literal hfirst.1 (.inr hfirst.2) htakes⟩
    · cases h
  · cases h
  · obtain ⟨- | ⟨attempt', later'⟩, htaken, h⟩ := exists_of_bind_eq_ok h
    · cases h
    · exact exists_takes_lead (fun hstarted => (by cases hstarted)) htaken
        (exists_takes_of_matchBlocks h)

/-- A match that a search finds is made up of one segment for each block. -/
theorem exists_madeOf {pattern : Pattern} {first : Nat} {found : PatternMatch}
    (h : search sql (tokens sql) pattern first = .ok (some found)) :
    ∃ segments, MadeOf sql pattern found segments := by
  unfold search at h
  generalize hrun : (tokens sql).drop first = run at h
  induction run generalizing first with
  | nil => cases h
  | cons token later ih =>
    rw [firstFrom] at h
    obtain ⟨attempt, hattempt, h⟩ := exists_of_bind_eq_ok h
    cases attempt with
    | some finished =>
      cases h
      obtain ⟨segments, htakes⟩ := exists_takes_of_matchAt hattempt
      exact ⟨segments, token, later, finished, hrun, htakes, rfl⟩
    | none => exact ih (by rw [← drop_drop, hrun]; rfl) h

theorem Takes.first_outside {text : Text} {token : Token}
    (h : Takes sql false (.literal text :: blocks) attempt (token :: later) segments finished) :
    token.inQuotes = false := by
  cases h with
  | literal _ houtside _ => exact houtside.resolve_left Bool.false_ne_true

/-- What no block takes for a name stays. -/
theorem Takes.get?_bindings {started : Bool} {name : Text}
    (h : Takes sql started blocks attempt run segments finished)
    (hname : ∀ constraint, .placeholder name constraint ∉ blocks) :
    finished.bindings.get? name = attempt.bindings.get? name := by
  have hinsert : ∀ (bindings : Parameters) {other : Text} (value : Text), name ≠ other →
      (bindings.insert other value).get? name = bindings.get? name := by
    intro bindings other value hne
    rw [Parameters.get?_insert, if_neg hne]
  induction h with
  | done => rfl
  | literal _ _ _ ih => exact ih fun constraint hmem => hname constraint (.tail _ hmem)
  | capture _ _ _ _ ih =>
    rw [ih fun constraint hmem => hname constraint (.tail _ hmem)]
    refine hinsert _ _ ?_
    rintro rfl
    exact hname _ (.head _)
  | lead _ htaken _ ih =>
    obtain ⟨-, -, value, hvalue⟩ := takeLead_cases htaken
    rw [ih fun constraint hmem => hname constraint (.tail _ hmem), hvalue]
    refine hinsert _ _ ?_
    rintro rfl
    exact hname _ (.head _)

end Attempts

/-! ## Quote marks in pairs -/

/-- Quote marks stand in the pattern only in pairs, with a variable that has no constraint between
the two. -/
inductive QuotePaired : List PatternBlock → Prop where
  | nil : QuotePaired []
  | other {block : PatternBlock} {blocks : List PatternBlock} : block.isMark = false →
    QuotePaired blocks → QuotePaired (block :: blocks)
  | pair {mark : Char} {name : Text} {blocks : List PatternBlock} : isQuoteMark mark = true →
    QuotePaired blocks →
    QuotePaired (.literal [mark] :: .placeholder name none :: .literal [mark] :: blocks)

/-- Every variable has a literal directly after it. -/
def Bounded (blocks : List PatternBlock) : Prop :=
  ∀ front name constraint later, blocks = front ++ .placeholder name constraint :: later →
    ∃ text rest, later = .literal text :: rest

theorem Bounded.exists_literal {block : PatternBlock} {front rest : List PatternBlock}
    (h : Bounded (block :: (front ++ rest.take 1))) (hblock : block.isPlaceholder) :
    ∃ text later, front ++ rest = .literal text :: later := by
  cases block with
  | literal text => cases hblock
  | placeholder name constraint =>
    obtain ⟨text, later, hlater⟩ := h [] name constraint _ rfl
    refine ⟨text, later ++ rest.drop 1, ?_⟩
    rw [← cons_append, ← hlater, append_assoc, take_append_drop]

theorem Bounded.tail {block : PatternBlock} {blocks : List PatternBlock}
    (h : Bounded (block :: blocks)) : Bounded blocks := by
  rintro front name constraint later rfl
  exact h (block :: front) name constraint later rfl

/-- Every literal of the script that a quote mark of the pattern opens has evenly many marks of the
other kind. -/
def OpensEvenly (sql : Text) (blocks : List PatternBlock) (segments : List (List Token)) : Prop :=
  ∀ mark opening inside closing, isQuoteMark mark = true →
    (.literal [mark], [opening]) ∈ blocks.zip segments → LiteralAt sql opening inside closing →
    Evenly inside

theorem bounded_of_forall {blocks : List PatternBlock}
    (h : ∀ block ∈ blocks, block.isPlaceholder = false) : Bounded blocks := by
  rintro front name constraint later rfl
  cases h (.placeholder name constraint) (by simp)

theorem opensEvenly_of_forall {blocks : List PatternBlock}
    (h : ∀ block ∈ blocks, block.isMark = false) (sql : Text) (segments : List (List Token)) :
    OpensEvenly sql blocks segments := by
  intro mark opening inside closing hmark hmem
  have hblock : (PatternBlock.literal [mark]).isMark = false := h _ (of_mem_zip hmem).1
  simp only [isQuoteMark, Bool.or_eq_true, beq_iff_eq] at hmark
  rcases hmark with rfl | rfl <;> cases hblock

/-- What a variable between two quote marks of the pattern takes, where the token `opening` is
matched by the first mark and the token `boundary` by the second. If the one opens a literal of the
script, the other closes it just if evenly many marks of the other kind stand in it. If not, the
variable runs past the end of the literal. -/
structure QuotedCapture (sql : Text) (mark : Char) (opening : Token) (segment : List Token)
    (boundary : Token) (value : Text) : Prop where
  marks : opening.text = [mark] ∧ boundary.text = [mark]
  slice : ∃ first, (segment ++ [boundary]).head? = some first ∧
    sql.slice? first.start boundary.start = some value
  literal : opening.inQuotes = false → ∃ inside closing, LiteralAt sql opening inside closing ∧
    ((segment = inside ∧ boundary = closing) ↔ Evenly inside) ∧
    (¬ Evenly inside → ∃ more, segment = inside ++ closing :: more)

section Pairs

variable {sql : Text} {attempt finished : Attempt} {run : List Token}
  {segments : List (List Token)} {blocks : List PatternBlock} {started : Bool}

/-- A block that is no quote mark leaves it outside of quotes, in the pattern and, unless it takes
what a constraint matches, in the script. -/
theorem Takes.step {block : PatternBlock}
    (h : Takes sql started (block :: blocks) attempt run segments finished)
    (hmark : block.isMark = false) (houtside : attempt.inPatternQuote = false) :
    ∃ segment after mid left, run = segment ++ left ∧ segments = segment :: after ∧
      mid.inPatternQuote = false ∧ Takes sql true blocks mid left after finished ∧
      ((block.isPlaceholder → started ∧ ∃ text rest, blocks = .literal text :: rest) →
        Flagged none run → Flagged none left) := by
  cases h with
  | @literal _ text _ _ _ token later after his _ hrest =>
    have hplain : (PatternBlock.literal text).Plain := by
      simpa [PatternBlock.isMark, PatternBlock.Plain] using hmark
    have hquote := isQuote_eq_false_of_is hplain his
    refine ⟨[token], after, _, later, rfl, rfl, ?_, hrest, fun _ hflagged => ?_⟩
    · simp [Attempt.afterLiteral, houtside, hquote]
    · rw [← markAfter_of_isQuote_eq_false hquote]
      exact hflagged.2
  | @capture _ _ _ _ _ _ _ segment later boundary after hboundary _ _ hrest =>
    rw [houtside] at hboundary
    obtain ⟨segment', hsegment, hcaptured⟩ := boundary?_eq_some_iff.1 hboundary
    obtain rfl := append_cancel_right hsegment
    refine ⟨segment, after, _, boundary :: later, rfl, rfl, ?_, hrest, fun _ hflagged => ?_⟩
    · exact houtside
    · exact hcaptured.closed.flagged hflagged
  | @lead _ _ _ _ _ mid _ segment left after hlead htaken hrest =>
    refine ⟨segment, after, mid, left, rfl, rfl, ?_, hrest, fun hbounded => ?_⟩
    · rw [(takeLead_cases htaken).2.1, houtside]
    · obtain ⟨hstarted, text, rest, rfl⟩ := hbounded rfl
      exact absurd (hlead hstarted) Bool.false_ne_true

/-- What a pair of quote marks takes, with the variable between them. -/
structure PairTaken (sql : Text) (mark : Char) (name : Text) (blocks : List PatternBlock)
    (finished : Attempt) (opening : Token) (segment : List Token) (boundary : Token)
    (later : List Token) (after : List (List Token)) : Prop where
  opens : opening.text = [mark]
  stops : boundary? true [mark] [] (segment ++ boundary :: later) = some (boundary, later)
  rest : ∃ value mid,
    sql.slice (min (startOf sql (segment ++ boundary :: later)) boundary.start) boundary.start =
      .ok value ∧
    mid.inPatternQuote = false ∧ mid.bindings.get? name = some value ∧
    Takes sql true blocks mid later after finished

theorem Takes.exists_pairTaken {mark : Char} (hmark : isQuoteMark mark) {name : Text}
    (h : Takes sql started
      (.literal [mark] :: .placeholder name none :: .literal [mark] :: blocks) attempt run segments
      finished)
    (houtside : attempt.inPatternQuote = false) : ∃ opening segment boundary later after,
      run = opening :: (segment ++ boundary :: later) ∧
      segments = [opening] :: segment :: [boundary] :: after ∧
      PairTaken sql mark name blocks finished opening segment boundary later after := by
  cases h with
  | @literal _ _ _ _ _ opening _ _ hopening _ hrest =>
    have hopens := isQuote_of_mark hmark ((is_mark_iff hmark).1 hopening)
    cases hrest with
    | @capture _ _ value _ _ _ _ segment later boundary _ hboundary hvalue _ hrest =>
      cases hrest with
      | @literal _ _ _ _ _ _ _ after his _ hrest =>
        have hcloses := isQuote_of_mark hmark ((is_mark_iff hmark).1 his)
        have hinside : (attempt.inPatternQuote != opening.isQuote) := by
          simp [houtside, hopens]
        rw [Attempt.afterLiteral, hinside] at hboundary
        refine ⟨opening, segment, boundary, later, after, rfl, rfl, (is_mark_iff hmark).1 hopening,
          hboundary, value, _, hvalue, ?_, ?_, hrest⟩
        · simp [Attempt.afterLiteral, houtside, hopens, hcloses]
        · simp [Attempt.afterLiteral, Parameters.get?_insert]

section PairTaken

variable {mark : Char} {name : Text} {opening boundary : Token} {segment later : List Token}
  {after : List (List Token)}

/-- A pair whose first mark opens a literal of the script. -/
theorem PairTaken.exists_literalAt (hmark : isQuoteMark mark)
    (h : PairTaken sql mark name blocks finished opening segment boundary later after)
    (hplaced : ∃ front, tokens sql = front ++ opening :: (segment ++ boundary :: later))
    (hflagged : Flagged none (opening :: (segment ++ boundary :: later))) :
    ∃ inside closing, LiteralAt sql opening inside closing ∧
      ((segment = inside ∧ boundary = closing) ↔ Evenly inside) ∧
      (¬ Evenly inside → ∃ more, segment = inside ++ closing :: more) ∧
      (Evenly inside → Flagged none later) := by
  have hboundary := (is_mark_iff hmark).1 (is_of_boundary? h.stops)
  obtain ⟨inside, closing, rest, hrun, hclosing, hinside, hiff, hodd⟩ :=
    boundary?_quoted hmark hboundary h.stops
  rw [hrun] at hflagged hplaced
  have hquote := isQuote_of_mark hmark h.opens
  rw [← h.opens] at hclosing hinside
  obtain ⟨hflags, hlater⟩ := flagged_quoted hquote hinside hclosing hflagged
  obtain ⟨hbetween, hlast⟩ := forall_mem_append.1 hflags
  obtain ⟨front, hfront⟩ := hplaced
  refine ⟨inside, closing, ⟨⟨front, rest, hfront⟩, ⟨hquote, hflagged.1⟩,
    fun token hmem => ⟨hinside token hmem, hbetween token hmem⟩,
    hclosing, hlast closing mem_cons_self⟩, hiff, hodd, fun heven => ?_⟩
  obtain ⟨rfl, rfl⟩ := hiff.2 heven
  obtain ⟨-, rfl⟩ := List.cons.inj (append_cancel_left hrun)
  exact hlater

/-- The variable takes the text from the first token behind the one mark up to the other mark. -/
theorem PairTaken.exists_quotedCapture (hmark : isQuoteMark mark)
    (h : PairTaken sql mark name blocks finished opening segment boundary later after)
    (hplaced : ∃ front, tokens sql = front ++ opening :: (segment ++ boundary :: later)) :
    ∃ value, QuotedCapture sql mark opening segment boundary value ∧
      ((∀ constraint, .placeholder name constraint ∉ blocks) →
        finished.bindings.get? name = some value) := by
  obtain ⟨value, mid, hvalue, -, hname, hrest⟩ := h.rest
  obtain ⟨front, hfront⟩ := hplaced
  have hlaid : Laid sql (segment ++ boundary :: later) := by
    refine (laid_tokens sql).sublist ?_
    rw [hfront]
    exact (sublist_cons_self _ _).trans (sublist_append_right _ _)
  -- whether a quote of the pattern is open plays no part in what is cut out
  have hready : Ready sql ⟨0, startOf sql (segment ++ boundary :: later), false, []⟩
      (segment ++ boundary :: later) := ⟨hlaid, rfl, rfl⟩
  obtain ⟨first, value', hfirst, hslice, hvalue'⟩ := hready.exists_slice
  cases hvalue.symm.trans hvalue'
  refine ⟨value, ⟨⟨h.opens, (is_mark_iff hmark).1 (is_of_boundary? h.stops)⟩,
    ⟨first, hfirst, hslice⟩, fun houtside => ?_⟩, fun hfree => ?_⟩
  · have hflagged : Flagged none (opening :: (segment ++ boundary :: later)) := by
      have hdrop : (tokens sql).drop front.length = opening :: (segment ++ boundary :: later) := by
        rw [hfront, drop_left]
      rw [← hdrop]
      exact flagged_drop (flagged_tokens sql) (by rw [hdrop]; rfl) houtside
    obtain ⟨inside, closing, hliteral, hiff, hodd, -⟩ :=
      h.exists_literalAt hmark ⟨front, hfront⟩ hflagged
    exact ⟨inside, closing, hliteral, hiff, hodd⟩
  · rw [hrest.get?_bindings hfree, hname]

end PairTaken

/-- The state of a match when the blocks `rest` are left. -/
structure Halfway (sql : Text) (started : Bool) (front rest : List PatternBlock)
    (run : List Token) (finished : Attempt) (before after : List (List Token)) (mid : Attempt)
    (left : List Token) : Prop where
  length : before.length = front.length
  tokens : run = before.flatten ++ left
  outside : mid.inPatternQuote = false
  takes : Takes sql (started || !front.isEmpty) rest mid left after finished
  flagged : (started = false → front.head?.any PatternBlock.isPlaceholder = false) →
    Bounded (front ++ rest.take 1) → OpensEvenly sql front before →
    (∃ earlier, SqlScript.tokens sql = earlier ++ run) → Flagged none run →
    Flagged none left

/-- No quote mark of the pattern is open after pairs of them, and no literal of the script either if
each variable had a literal to stop at and each pair took one literal. -/
theorem Takes.exists_halfway {front rest : List PatternBlock}
    (h : Takes sql started (front ++ rest) attempt run segments finished)
    (hpaired : QuotePaired front) (houtside : attempt.inPatternQuote = false) :
    ∃ before after mid left, segments = before ++ after ∧
      Halfway sql started front rest run finished before after mid left := by
  induction hpaired generalizing started attempt run segments with
  | nil =>
    refine ⟨[], segments, attempt, run, rfl, rfl, rfl, houtside, ?_, fun _ _ _ _ => id⟩
    simpa using h
  | @other block front hmark _ ih =>
    obtain ⟨segment, after, mid, left, rfl, rfl, hmid, htakes, hflags⟩ := h.step hmark houtside
    obtain ⟨before, after, mid, left, rfl, hhalf⟩ := ih htakes hmid
    refine ⟨segment :: before, after, mid, left, rfl, ?_, ?_, hhalf.outside, ?_, ?_⟩
    · simp [hhalf.length]
    · rw [hhalf.tokens, flatten_cons, append_assoc]
    · simpa using hhalf.takes
    · rintro hstarted hbounded heven ⟨earlier, hearlier⟩ hflagged
      refine hhalf.flagged (fun hfalse => (by cases hfalse)) hbounded.tail ?_ ?_
        (hflags ?_ hflagged)
      · intro mark opening inside closing hmark hmem
        exact heven mark opening inside closing hmark (mem_cons_of_mem _ hmem)
      · exact ⟨earlier ++ segment, by rw [hearlier, append_assoc]⟩
      · intro hplaceholder
        refine ⟨?_, hbounded.exists_literal hplaceholder⟩
        cases started with
        | true => rfl
        | false => simp [hplaceholder] at hstarted
  | @pair mark name front hmark _ ih =>
    obtain ⟨opening, segment, boundary, later, after, rfl, rfl, hpair⟩ :=
      h.exists_pairTaken hmark houtside
    obtain ⟨value, mid, -, hmid, -, htakes⟩ := hpair.rest
    obtain ⟨before, after, mid, left, rfl, hhalf⟩ := ih htakes hmid
    refine ⟨[opening] :: segment :: [boundary] :: before, after, mid, left, rfl, ?_, ?_,
      hhalf.outside, ?_, ?_⟩
    · simp [hhalf.length]
    · simp [hhalf.tokens]
    · simpa using hhalf.takes
    · rintro - hbounded heven ⟨earlier, hearlier⟩ hflagged
      obtain ⟨inside, closing, hliteral, -, -, hlater⟩ :=
        hpair.exists_literalAt hmark ⟨earlier, hearlier⟩ hflagged
      refine hhalf.flagged (fun hfalse => (by cases hfalse)) hbounded.tail.tail.tail ?_ ?_
        (hlater (heven mark opening inside closing hmark mem_cons_self hliteral))
      · intro mark opening inside closing hmark hmem
        refine heven mark opening inside closing hmark ?_
        exact mem_cons_of_mem _ (mem_cons_of_mem _ (mem_cons_of_mem _ hmem))
      · exact ⟨earlier ++ opening :: (segment ++ [boundary]), by simp [hearlier]⟩

end Pairs

/-- A variable without a constraint between two quote marks takes the literal that the first mark
opens, as far as its closing mark, just if evenly many marks of the other kind stand in it, and else
it runs past the closing mark. This is so in every match, for every such variable with only pairs of
marks before it, if the first mark opens a literal at all. It does if the pattern starts with a
literal, every variable before the mark has a literal directly after it, and the marks before it
opened literals with evenly many marks of the other kind. -/
theorem quoted_variable_takes_literal_iff (sql : Text) (pattern : Pattern)
    (front back : List PatternBlock) (mark : Char) (name : Text)
    (hmark : Text.isQuoteMark mark = true)
    (hblocks : pattern.blocks =
      front ++ .literal [mark] :: .placeholder name none :: .literal [mark] :: back)
    (hpaired : QuotePaired front) (first : Nat) (found : PatternMatch)
    (hfound : search sql (tokens sql) pattern first = .ok (some found)) :
    ∃ before opening segment boundary after value,
      MadeOf sql pattern found (before ++ [opening] :: segment :: [boundary] :: after) ∧
      before.length = front.length ∧
      QuotedCapture sql mark opening segment boundary value ∧
      ((∀ constraint, .placeholder name constraint ∉ back) →
        found.bindings.get? name = some value) ∧
      (front.head?.any PatternBlock.isPlaceholder = false → Bounded (front ++ [.literal [mark]]) →
        OpensEvenly sql front before → opening.inQuotes = false) := by
  obtain ⟨segments, token, later, finished, hdrop, htakes, hfinished⟩ := exists_madeOf hfound
  have hmade := htakes
  rw [hblocks] at htakes
  obtain ⟨before, after, mid, left, rfl, hhalf⟩ := htakes.exists_halfway hpaired rfl
  obtain ⟨opening, segment, boundary, later', after, rfl, rfl, hpair⟩ :=
    hhalf.takes.exists_pairTaken hmark hhalf.outside
  have hplaced : tokens sql = (tokens sql).take found.startToken ++ token :: later := by
    rw [← hdrop, List.take_append_drop]
  obtain ⟨value, hcapture, hvalue⟩ := hpair.exists_quotedCapture hmark
    ⟨(tokens sql).take found.startToken ++ before.flatten, by
      rw [List.append_assoc, ← hhalf.tokens, ← hplaced]⟩
  refine ⟨before, opening, segment, boundary, after, value,
    ⟨token, later, finished, hdrop, hmade, hfinished⟩, hhalf.length, hcapture, fun hfree => ?_,
    fun hhead hbounded heven => ?_⟩
  · rw [hfinished]
    exact hvalue hfree
  · have houtside : token.inQuotes = false := by
      rcases front with - | ⟨text | ⟨other, constraint⟩, front⟩
      · exact htakes.first_outside
      · exact htakes.first_outside
      · cases hhead
    have hflagged : Token.Flagged none (token :: later) := by
      rw [← hdrop]
      exact flagged_drop (flagged_tokens sql) (by rw [hdrop]; rfl) houtside
    exact (hhalf.flagged (fun _ => hhead) hbounded heven ⟨_, hplaced⟩ hflagged).1

/-- The argument of a call, by a pattern. -/
def argument : Pattern where
  source := "f('@x')".toList
  blocks := [.literal "f".toList, .literal "(".toList, .literal "'".toList,
    .placeholder "x".toList none, .literal "'".toList, .literal ")".toList]

/-- A call whose argument holds quote marks and what would end a variable elsewhere. -/
def quotedCall : Text :=
  "f('a \"b\"; c)')".toList

theorem quoted_variable_takes_argument :
    (Pattern.compile argument.source).toOption = some argument ∧
    (search quotedCall (tokens quotedCall) argument 0).toOption =
      some (some ⟨0, 14, 0, [("x".toList, "a \"b\"; c)".toList)]⟩) ∧
    ∃ opening segment boundary, opening.inQuotes = false ∧
      QuotedCapture quotedCall '\'' opening segment boundary "a \"b\"; c)".toList := by
  have hsearch : (search quotedCall (tokens quotedCall) argument 0).toOption =
      some (some ⟨0, 14, 0, [("x".toList, "a \"b\"; c)".toList)]⟩) := by decide +kernel
  refine ⟨by decide +kernel, hsearch, ?_⟩
  obtain ⟨before, opening, segment, boundary, after, value, -, -, hcapture, hvalue, houtside⟩ :=
    quoted_variable_takes_literal_iff quotedCall argument (argument.blocks.take 2)
      [.literal ")".toList] '\'' "x".toList rfl rfl (.other rfl (.other rfl .nil)) 0 _
      (eq_ok_of_toOption hsearch)
  obtain rfl := Option.some.inj (hvalue (by simp))
  exact ⟨opening, segment, boundary, houtside rfl (bounded_of_forall (by decide))
    (opensEvenly_of_forall (by decide) _ _), hcapture⟩

/-- Two calls, each with one mark of the other kind in its argument. -/
def quotedCalls : Text :=
  "f('a\"b') + f('c\"d')".toList

/-- A variable between two quote marks takes more than the literal that the first mark opens. -/
theorem quoted_variable_passes_literal :
    (Pattern.compile argument.source).toOption = some argument ∧ QuotePaired argument.blocks ∧
    (tokenize quotedCalls).toOption = some (tokens quotedCalls) ∧
    (search quotedCalls (tokens quotedCalls) argument 0).toOption =
      some (some ⟨0, 19, 0, [("x".toList, "a\"b') + f('c\"d".toList)]⟩) ∧
    ∃ opening inside closing, LiteralAt quotedCalls opening inside closing ∧
      opening.start = 2 ∧ closing.stop = 7 ∧ ¬ Evenly inside := by
  have htokens : tokens quotedCalls = [⟨0, 1, ['f'], false⟩, ⟨1, 2, ['('], false⟩] ++
      ⟨2, 3, ['\''], false⟩ ::
      ([⟨3, 4, ['a'], true⟩, ⟨4, 5, ['"'], true⟩, ⟨5, 6, ['b'], true⟩] ++ ⟨6, 7, ['\''], true⟩ ::
        (tokens quotedCalls).drop 7) := by
    decide +kernel
  refine ⟨by decide +kernel, ?_, by decide +kernel, by decide +kernel,
    _, _, _, ⟨⟨_, _, htokens⟩, by decide, by decide, by decide⟩, rfl, rfl, by decide⟩
  exact .other rfl (.other rfl (.pair rfl (.other rfl .nil)))

end Search

end SqlScript
