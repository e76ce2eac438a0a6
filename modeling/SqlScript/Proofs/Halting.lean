import SqlScript.Pattern.Matcher
import SqlScript.Proofs.MatchEnd
import SqlScript.Proofs.Search

/-!
# The loop of a matcher ends

A matcher moves its cursor back whenever it gives an attempt up, and does not move it at all where a
constraint matches the empty text. That it ends all the same is shown by following one attempt: from
where the matcher stands, with so many tokens and blocks left, the loop stops with a match, or comes
to the token behind the one where the attempt started, within as many turns as there are tokens and
blocks left (`Matcher.Comes`). Each turn takes a token or a block, and the attempts start at later
and later tokens.

The same argument says what the loop comes to. The state of the loop and an attempt of `matchBlocks`
go side by side (`Matcher.Stands`, `Matcher.exists_comes`), so the loop ends with what `search`
finds (`Matcher.exists_run`).

What a turn reads is there: blocks and tokens because something of both is left, the literal behind
a variable because a pattern without it does not compile (`Pattern.Sound`), and offsets are places
of the text because tokens are laid out in it and expressions end their matches at places.
-/

namespace SqlScript

open List Text

variable {matcher' : Matcher} {result : Option Attempt} {α : Type}

/-! ## Patterns that compile -/

namespace Pattern

/-- Every variable without a constraint has a literal directly after it. -/
def Stopped (blocks : List PatternBlock) : Prop :=
  ∀ front name later, blocks = front ++ .placeholder name none :: later →
    ∃ text rest, later = .literal text :: rest

variable {blocks : List PatternBlock}

theorem Stopped.tail {block : PatternBlock} (h : Stopped (block :: blocks)) : Stopped blocks := by
  rintro front name later rfl
  exact h (block :: front) name later rfl

/-- What a matcher relies on in the blocks of a pattern. -/
structure Sound (blocks : List PatternBlock) : Prop where
  ne_nil : blocks ≠ []
  head : blocks.head?.any PatternBlock.isFree = false
  stopped : Stopped blocks

theorem hasFreeBeforeVariable_of_append {front : List PatternBlock}
    (h : hasFreeBeforeVariable (front ++ blocks) = false) :
    hasFreeBeforeVariable blocks = false := by
  induction front with
  | nil => exact h
  | cons block front ih =>
    refine ih ?_
    cases hrest : front ++ blocks with
    | nil => rfl
    | cons next rest =>
      rw [cons_append, hrest, hasFreeBeforeVariable, Bool.or_eq_false_iff] at h
      exact h.2

theorem stopped_of_hasFreeBeforeVariable (hfree : hasFreeBeforeVariable blocks = false)
    (hlast : blocks.getLast?.any PatternBlock.isFree = false) : Stopped blocks := by
  rintro front name later rfl
  have hrest := hasFreeBeforeVariable_of_append hfree
  cases later with
  | nil => simp [PatternBlock.isFree] at hlast
  | cons next rest =>
    cases next with
    | literal text => exact ⟨text, rest, rfl⟩
    | placeholder other constraint =>
      simp [hasFreeBeforeVariable, PatternBlock.isFree, PatternBlock.isPlaceholder] at hrest

theorem blocksOf_ne_nil {source : Text} {run : List Token} (hrun : run ≠ [])
    (h : blocksOf source run = .ok blocks) : blocks ≠ [] := by
  rw [blocksOf.eq_def] at h
  split at h
  · exact absurd rfl hrun
  · cases h
    simp
  · split at h
    · split at h
      · cases h
      · cases h
      · split at h
        · obtain ⟨constraint, -, h⟩ := exists_of_bind_eq_ok h
          obtain ⟨later, -, h⟩ := exists_of_bind_eq_ok h
          cases h
          simp
        · cases h
    · obtain ⟨later, -, h⟩ := exists_of_bind_eq_ok h
      cases h
      simp

theorem sound_of_compile {source : Text} {pattern : Pattern} (h : compile source = .ok pattern) :
    Sound pattern.blocks := by
  unfold compile at h
  split at h
  · cases h
  · rename_i hrun
    obtain ⟨blocks, hblocks, h⟩ := exists_of_bind_eq_ok h
    split at h
    · cases h
    · rename_i hedge
      split at h
      · cases h
      · rename_i hfree
        cases h
        simp only [Bool.or_eq_true, not_or, Bool.not_eq_true] at hedge hfree
        exact ⟨blocksOf_ne_nil hrun hblocks, hedge.1,
          stopped_of_hasFreeBeforeVariable hfree hedge.2⟩

end Pattern

/-! ## Reading a list by index -/

theorem getElem?_of_drop {list rest : List α} {index : Nat} {a : α}
    (h : list.drop index = a :: rest) : list[index]? = some a := by
  rw [← head?_drop, h]
  rfl

theorem drop_succ_of_drop {list rest : List α} {index : Nat} {a : α}
    (h : list.drop index = a :: rest) : list.drop (index + 1) = rest := by
  rw [← drop_drop, h]
  rfl

theorem lt_length_of_drop {list rest : List α} {index : Nat} {a : α}
    (h : list.drop index = a :: rest) : index < list.length := by
  have hlength := congrArg List.length h
  rw [length_drop, length_cons] at hlength
  omega

namespace Matcher

open Search (Attempt boundary? openAfter startOf matchBlocks takeLead)

section Runs

variable (sql : Text) (tokens : List Token) (blocks : List PatternBlock)

/-- The loop comes from the one state to the other in the given number of turns. -/
def Leads (turns : Nat) (matcher matcher' : Matcher) : Prop :=
  ∀ more, run sql tokens blocks (more + turns) matcher = run sql tokens blocks more matcher'

/-- Within the given number of turns the loop stops with the match that the attempt has come to,
or gives up the attempt that started at the token with the index. -/
inductive Comes (start index : Nat) (matcher : Matcher) (turns : Nat) : Option Attempt → Prop where
  | found {finished : Attempt} :
    run sql tokens blocks turns matcher =
      some (.found ⟨start, finished.stop, index, finished.bindings⟩) →
    Comes start index matcher turns (some finished)
  | restart {few : Nat} : few ≤ turns →
    Leads sql tokens blocks few matcher { cursor := index + 1 } →
    Comes start index matcher turns none

end Runs

section Simulation

variable {sql : Text} {tokens : List Token} {blocks : List PatternBlock} {matcher : Matcher}

theorem leads_of_turn (h : turn sql tokens blocks matcher = .next matcher') :
    Leads sql tokens blocks 1 matcher matcher' := by
  intro more
  rw [run, h]

variable {few turns index : Nat}

theorem Leads.trans {matcher'' : Matcher} {more : Nat}
    (h : Leads sql tokens blocks few matcher matcher')
    (h' : Leads sql tokens blocks more matcher' matcher'') :
    Leads sql tokens blocks (more + few) matcher matcher'' := by
  intro turns
  rw [← Nat.add_assoc, h, h']

theorem run_mono {outcome : Outcome} (hle : few ≤ turns)
    (h : run sql tokens blocks few matcher = some outcome) :
    run sql tokens blocks turns matcher = some outcome := by
  induction few generalizing matcher turns with
  | zero => simp [run] at h
  | succ few ih =>
    obtain ⟨turns, rfl⟩ : ∃ rest, turns = rest + 1 := ⟨turns - 1, by omega⟩
    rw [run] at h ⊢
    split at h
    · exact ih (by omega) h
    · exact h

/-- The loop ends in one way only. -/
theorem run_unique {turns' : Nat} {outcome outcome' : Outcome}
    (h : run sql tokens blocks turns matcher = some outcome)
    (h' : run sql tokens blocks turns' matcher = some outcome') : outcome = outcome' := by
  rcases Nat.le_total turns turns' with hle | hle
  · exact Option.some.inj ((run_mono hle h).symm.trans h')
  · exact Option.some.inj (h.symm.trans (run_mono hle h'))

theorem Comes.of_leads {start : Nat} (h : Comes sql tokens blocks start index matcher' turns result)
    (hleads : Leads sql tokens blocks few matcher matcher') :
    Comes sql tokens blocks start index matcher (turns + few) result := by
  cases h with
  | found hrun => exact .found ((hleads turns).trans hrun)
  | restart hle h => exact .restart (Nat.add_le_add_right hle few) (hleads.trans h)

theorem Comes.mono {start : Nat} (hle : few ≤ turns)
    (h : Comes sql tokens blocks start index matcher few result) :
    Comes sql tokens blocks start index matcher turns result := by
  cases h with
  | found hrun => exact .found (run_mono hle hrun)
  | restart hle' h => exact .restart (Nat.le_trans hle' hle) h

/-! ## The end of a capture -/

theorem nextStart_of_drop {token : Token} {later : List Token}
    (h : tokens.drop index = token :: later) : nextStart sql tokens index = startOf sql later := by
  rw [nextStart, ← head?_drop, drop_succ_of_drop h]
  cases later <;> rfl

/-- The matcher is in an attempt, at a variable with a literal after it. -/
structure Capturing (blocks : List PatternBlock) (matcher : Matcher) (name : Text)
    (constraint : Option Constraint) (text : Text) (rest : List PatternBlock) : Prop where
  started : matcher.block ≠ 0
  blocks : blocks.drop matcher.block = .placeholder name constraint :: .literal text :: rest

section Capture

variable {name text : Text} {constraint : Option Constraint} {rest : List PatternBlock}
  {token : Token} {later : List Token}

theorem Capturing.literalAfter? (h : Capturing blocks matcher name constraint text rest) :
    literalAfter? blocks matcher.block = some text := by
  rw [Matcher.literalAfter?, getElem?_of_drop (drop_succ_of_drop h.blocks)]

theorem Capturing.turn_eq (h : Capturing blocks matcher name constraint text rest)
    (hget : tokens[matcher.cursor]? = some token) :
    turn sql tokens blocks matcher =
      captureTurn sql tokens blocks matcher token name constraint := by
  rw [turn, hget, getElem?_of_drop h.blocks]
  cases constraint with
  | none => rfl
  | some constraint =>
    have hstarted : (!matcher.isStarted || (Matcher.literalAfter? blocks matcher.block).isNone) =
        false := by
      simp [isStarted, h.started, h.literalAfter?]
    simp [hstarted]

/-- At the end of the tokens an attempt is given up. -/
theorem turn_of_drop_eq_nil (hstarted : matcher.block ≠ 0)
    (hlater : tokens.drop matcher.cursor = []) :
    turn sql tokens blocks matcher = .next matcher.restart := by
  rw [turn, ← head?_drop, hlater]
  simp [isStarted, hstarted]

/-- While nothing stops the capture, the loop goes from token to token. It comes to the token at
which the capture ends, with nothing open, or gives up where the capture has no end. -/
theorem Capturing.leads (h : Capturing blocks matcher name constraint text rest) (sql : Text)
    (hlater : tokens.drop matcher.cursor = later) :
    (boundary? matcher.inPatternQuote text matcher.opened later = none →
      ∃ few ≤ later.length + 1, Leads sql tokens blocks few matcher matcher.restart) ∧
    ∀ boundary behind,
      boundary? matcher.inPatternQuote text matcher.opened later = some (boundary, behind) →
      ∃ few cursor, few + behind.length + 1 ≤ later.length ∧ boundary.is text ∧
        tokens.drop cursor = boundary :: behind ∧
        Leads sql tokens blocks few matcher { matcher with cursor := cursor, opened := [] } := by
  induction later generalizing matcher with
  | nil =>
    refine ⟨fun _ => ⟨1, by simp, leads_of_turn (turn_of_drop_eq_nil h.started hlater)⟩, ?_⟩
    intro boundary behind hsome
    simp [boundary?] at hsome
  | cons token later ih =>
    have hturn : turn sql tokens blocks matcher =
        captureTurn sql tokens blocks matcher token name constraint :=
      h.turn_eq (getElem?_of_drop hlater)
    rw [captureTurn, h.literalAfter?] at hturn
    rw [boundary?]
    by_cases hend : (matcher.opened.isEmpty && token.is text)
    · -- the capture ends here, before any turn
      rw [if_pos hend]
      refine ⟨fun hnone => (by cases hnone), fun boundary behind hsome => ?_⟩
      cases hsome
      rw [Bool.and_eq_true, List.isEmpty_iff] at hend
      refine ⟨0, matcher.cursor, by simp, hend.2, hlater, fun more => ?_⟩
      rw [← hend.1]
      rfl
    · rw [if_neg hend]
      simp only [if_neg hend] at hturn
      by_cases hstop : (matcher.opened.isEmpty && !matcher.inPatternQuote &&
          (token.text == [';'] || token.text == [')']))
      · rw [if_pos hstop]
        rw [if_pos hstop] at hturn
        exact ⟨fun _ => ⟨1, by simp, leads_of_turn hturn⟩, fun _ _ hsome => by cases hsome⟩
      · rw [if_neg hstop]
        rw [if_neg hstop] at hturn
        have hleads := leads_of_turn hturn
        obtain ⟨hnone, hsome⟩ := @ih { matcher with
          cursor := matcher.cursor + 1
          opened := openAfter matcher.inPatternQuote matcher.opened token }
          ⟨h.started, h.blocks⟩ (drop_succ_of_drop hlater)
        refine ⟨fun hboundary => ?_, fun boundary behind hboundary => ?_⟩
        · obtain ⟨few, hle, hrestart⟩ := hnone hboundary
          exact ⟨few + 1, by simpa using hle, hleads.trans hrestart⟩
        · obtain ⟨few, cursor, hle, his, hcursor, hto⟩ := hsome boundary behind hboundary
          refine ⟨few + 1, cursor, ?_, his, hcursor, hleads.trans hto⟩
          rw [length_cons]
          omega

end Capture

/-! ## An attempt -/

/-- The matcher has come as far as the attempt, when the blocks `rest` and the tokens `later` are
left. -/
structure Stands (sql : Text) (tokens : List Token) (blocks : List PatternBlock) (matcher : Matcher)
    (attempt : Attempt) (rest : List PatternBlock) (later : List Token) : Prop where
  started : matcher.block ≠ 0
  blocksLeft : blocks.drop matcher.block = rest
  tokensLeft : tokens.drop matcher.cursor = later
  opened : matcher.opened = []
  quote : matcher.inPatternQuote = attempt.inPatternQuote
  bindings : matcher.bindings = attempt.bindings
  captureStart : rest.head?.any PatternBlock.isPlaceholder = true →
    matcher.captureStart = attempt.captureStart
  isPlace : sql.IsPlace attempt.captureStart

/-- Wherever the matcher stands with these blocks and tokens left, the loop comes to what
`matchBlocks` says. -/
def Follows (sql : Text) (tokens : List Token) (blocks rest : List PatternBlock)
    (later : List Token) : Prop :=
  ∀ (attempt : Attempt) (matcher : Matcher), rest ≠ [] →
    Stands sql tokens blocks matcher attempt rest later →
    ∃ result, matchBlocks sql rest attempt later = .ok result ∧
      Comes sql tokens blocks matcher.start matcher.startToken matcher
        (later.length + rest.length) result

section Attempts

variable {attempt : Attempt} {token : Token} {later : List Token} {rest : List PatternBlock}

theorem isPlace_startOf (hlaid : Laid sql tokens) {index : Nat} (h : tokens.drop index = later) :
    sql.IsPlace (startOf sql later) := by
  cases later with
  | nil => exact isPlace_iff.2 ⟨sql, [], (append_nil sql).symm, rfl⟩
  | cons token later =>
    refine hlaid.isPlace_start (mem_of_mem_drop (i := index) ?_)
    rw [h]
    exact mem_cons_self

/-- After a literal the loop stops, or goes on with the blocks that are left. -/
theorem exists_comes_pass (attempt : Attempt) (hlaid : Laid sql tokens)
    (hturn : turn sql tokens blocks matcher = pass sql tokens blocks matcher' token)
    (hne : matcher'.block ≠ 0) (hle : matcher'.block ≤ blocks.length)
    (hrest : blocks.drop matcher'.block = rest)
    (hlater : tokens.drop matcher'.cursor = token :: later) (hopened : matcher'.opened = [])
    (hquote : matcher'.inPatternQuote = attempt.inPatternQuote)
    (hbindings : matcher'.bindings = attempt.bindings)
    (ih : Follows sql tokens blocks rest later) :
    ∃ result, matchBlocks sql rest (attempt.afterLiteral sql token later) later = .ok result ∧
      Comes sql tokens blocks matcher'.start matcher'.startToken matcher
        (later.length + rest.length + 1) result := by
  cases rest with
  | nil =>
    have hlast : matcher'.block = blocks.length :=
      Nat.le_antisymm hle (drop_eq_nil_iff.1 hrest)
    rw [pass, if_pos hlast] at hturn
    refine ⟨some (attempt.afterLiteral sql token later), rfl, .found ?_⟩
    rw [run, hturn, finish, hbindings]
    rfl
  | cons block rest =>
    have hlt := lt_length_of_drop hrest
    rw [pass, if_neg (Nat.ne_of_lt hlt), getElem?_of_drop hrest] at hturn
    obtain ⟨result, hresult, hcomes⟩ := ih (attempt.afterLiteral sql token later)
      { matcher' with
        cursor := matcher'.cursor + 1
        captureStart := if block.isPlaceholder then nextStart sql tokens matcher'.cursor
          else matcher'.captureStart
        inPatternQuote := matcher'.inPatternQuote != token.isQuote }
      (cons_ne_nil _ _)
      { started := hne
        blocksLeft := hrest
        tokensLeft := drop_succ_of_drop hlater
        opened := hopened
        quote := by simp [Attempt.afterLiteral, hquote]
        bindings := hbindings
        captureStart := fun hplaceholder => by
          have hblock : block.isPlaceholder := by simpa using hplaceholder
          simp [hblock, Attempt.afterLiteral, nextStart_of_drop hlater]
        isPlace := isPlace_startOf hlaid (drop_succ_of_drop hlater) }
    exact ⟨result, hresult, hcomes.of_leads (leads_of_turn hturn)⟩

@[simp] theorem startAt_cursor (matcher : Matcher) (token : Token) :
    (matcher.startAt token).cursor = matcher.cursor := by
  unfold startAt
  split <;> rfl

@[simp] theorem startAt_opened (matcher : Matcher) (token : Token) :
    (matcher.startAt token).opened = matcher.opened := by
  unfold startAt
  split <;> rfl

@[simp] theorem startAt_inPatternQuote (matcher : Matcher) (token : Token) :
    (matcher.startAt token).inPatternQuote = matcher.inPatternQuote := by
  unfold startAt
  split <;> rfl

theorem startAt_of_started (hstarted : matcher.block ≠ 0) (token : Token) :
    matcher.startAt token = matcher := by
  simp [startAt, isStarted, hstarted]

/-- The tokens that a match of a constraint takes are those that start before its end. -/
theorem drop_findIdx (run : List Token) (stop : Nat) :
    run.drop (run.findIdx fun token => stop ≤ token.start) =
      run.dropWhile fun token => token.start < stop := by
  rw [dropWhile_eq_drop_findIdx_not]
  congr 2
  funext token
  by_cases hlt : token.start < stop
  · simp [hlt]
  · simp [hlt, Nat.le_of_not_lt hlt]

/-- What a constraint matches at a token lies between two places of the text. -/
theorem exists_slice_lead (hlaid : Laid sql tokens) (hmem : token ∈ tokens) :
    ∃ behind, sql.dropBytes? token.start = some behind ∧
      ∀ {constraint : Constraint} {size : Nat}, constraint.matchLead? behind = some size →
        sql.IsPlace (token.start + size) ∧
        ∃ value, sql.slice? token.start (token.start + size) = some value := by
  obtain ⟨front, behind, rfl, hsize⟩ := isPlace_iff.1 (hlaid.isPlace_start hmem)
  refine ⟨behind, by rw [← hsize]; exact dropBytes?_append front behind, ?_⟩
  intro constraint size hmatch
  obtain ⟨a, b, rfl, rfl⟩ := isPlace_iff.1 (Constraint.isPlace_matchLead? hmatch)
  refine ⟨isPlace_iff.2 ⟨front ++ a, b, by rw [append_assoc], ?_⟩, a, ?_⟩
  · rw [byteSize_append, hsize]
  · rw [← hsize]
    exact slice?_append front a b

/-- The matcher after a variable took the value up to the offset `stop`. -/
def afterLead (tokens : List Token) (matcher : Matcher) (token : Token) (name value : Text)
    (stop : Nat) : Matcher :=
  { matcher.startAt token with
    cursor := matcher.cursor + (tokens.drop matcher.cursor).findIdx fun other => stop ≤ other.start
    block := matcher.block + 1
    captureStart := stop
    bindings := matcher.bindings.insert name value }

/-- What a variable takes by its constraint, in the loop and in an attempt. -/
theorem lead_cases (hlaid : Laid sql tokens) (hlater : tokens.drop matcher.cursor = token :: later)
    (blocks : List PatternBlock) (attempt : Attempt) (name : Text) (constraint : Constraint) :
    (takeLead sql name constraint attempt (token :: later) = .ok none ∧
      leadTurn sql tokens blocks matcher token name constraint = matcher.miss) ∨
    ∃ stop value, sql.IsPlace stop ∧
      takeLead sql name constraint attempt (token :: later) =
        .ok (some (⟨stop, stop, attempt.inPatternQuote, attempt.bindings.insert name value⟩,
          (token :: later).dropWhile fun other => other.start < stop)) ∧
      leadTurn sql tokens blocks matcher token name constraint =
        if matcher.block + 1 = blocks.length then
          .stop (.found ((matcher.afterLead tokens token name value stop).finish stop))
        else .next (matcher.afterLead tokens token name value stop) := by
  have hmem : token ∈ tokens := mem_of_getElem? (getElem?_of_drop hlater)
  obtain ⟨behind, hbehind, hplaces⟩ := exists_slice_lead hlaid hmem
  have hfrom : sql.sliceFrom token.start = .ok behind := by rw [sliceFrom, hbehind]
  rw [takeLead, leadTurn, hfrom, hbehind, ok_bind]
  cases hmatch : constraint.matchLead? behind with
  | none => exact .inl ⟨rfl, by simp only [hmatch]⟩
  | some size =>
    obtain ⟨hplace, value, hvalue⟩ := hplaces hmatch
    have hcursor := lt_length_of_drop hlater
    refine .inr ⟨token.start + size, value, hplace, ?_, ?_⟩
    · simp only [slice_eq_ok_iff.2 hvalue, ok_bind]
      rfl
    · simp only [hmatch, hvalue, startAt_cursor, if_neg (Nat.not_lt.2 (Nat.le_of_lt hcursor))]
      rfl

variable {constraint : Constraint}

/-- A variable takes what its constraint matches at a token, and the loop stops, or goes on with the
blocks that are left; or it takes nothing, and the attempt is given up. -/
theorem exists_comes_lead {name : Text} {block : PatternBlock} (attempt : Attempt)
    (hlaid : Laid sql tokens) (hturn : turn sql tokens blocks matcher =
      leadTurn sql tokens blocks matcher token name constraint)
    (hmiss : matcher.miss = .next { cursor := (matcher.startAt token).startToken + 1 })
    (hrest : blocks.drop matcher.block = block :: rest)
    (hlater : tokens.drop matcher.cursor = token :: later) (hopened : matcher.opened = [])
    (hquote : matcher.inPatternQuote = attempt.inPatternQuote)
    (hbindings : matcher.bindings = attempt.bindings)
    (ih : ∀ later, Follows sql tokens blocks rest later) :
    ∃ taken result, takeLead sql name constraint attempt (token :: later) = .ok taken ∧
      (taken = none ∧ result = none ∨ ∃ attempt' later', taken = some (attempt', later') ∧
          matchBlocks sql rest attempt' later' = .ok result) ∧
      Comes sql tokens blocks (matcher.startAt token).start (matcher.startAt token).startToken
        matcher ((token :: later).length + rest.length + 1) result := by
  rcases lead_cases hlaid hlater blocks attempt name constraint with
    ⟨htake, hlead⟩ | ⟨stop, value, hplace, htake, hlead⟩
  · rw [hlead, hmiss] at hturn
    exact ⟨none, none, htake, .inl ⟨rfl, rfl⟩, .restart (Nat.le_add_left 1 _) (leads_of_turn hturn)⟩
  · rw [hlead] at hturn
    cases rest with
    | nil =>
      have hlast : matcher.block + 1 = blocks.length :=
        Nat.le_antisymm (lt_length_of_drop hrest) (drop_eq_nil_iff.1 (drop_succ_of_drop hrest))
      rw [if_pos hlast] at hturn
      refine ⟨_, _, htake, .inr ⟨_, _, rfl, rfl⟩, .found ?_⟩
      rw [run, hturn, finish, ← hbindings]
      rfl
    | cons next rest =>
      have hnext := drop_succ_of_drop hrest
      rw [if_neg (Nat.ne_of_lt (lt_length_of_drop hnext))] at hturn
      have hdrop : tokens.drop (matcher.afterLead tokens token name value stop).cursor =
          (token :: later).dropWhile fun other => other.start < stop := by
        rw [afterLead, ← drop_drop, hlater, drop_findIdx]
      obtain ⟨result, hresult, hcomes⟩ := ih _
        ⟨stop, stop, attempt.inPatternQuote, attempt.bindings.insert name value⟩ _
        (cons_ne_nil _ _) (Stands.mk (Nat.succ_ne_zero _) hnext hdrop
          (by simp [afterLead, hopened]) (by simp [afterLead, hquote])
          (by simp [afterLead, hbindings]) (fun _ => rfl) hplace)
      refine ⟨_, result, htake, .inr ⟨_, _, rfl, hresult⟩, ?_⟩
      refine (hcomes.of_leads (leads_of_turn hturn)).mono ?_
      have hlength : ((token :: later).dropWhile fun other => other.start < stop).length ≤
          (token :: later).length := (dropWhile_sublist _).length_le
      omega

/-- Where the capture of a variable ends, the variable takes its value and the loop goes on past
the literal, or the value does not meet its constraint and the attempt is given up. -/
theorem Capturing.exists_comes {name text : Text} {constraint : Option Constraint}
    (h : Capturing blocks matcher name constraint text rest) (hlaid : Laid sql tokens)
    (hlater : tokens.drop matcher.cursor = token :: later) (hopened : matcher.opened = [])
    (his : token.is text) (hquote : matcher.inPatternQuote = attempt.inPatternQuote)
    (hbindings : matcher.bindings = attempt.bindings)
    (hstart : matcher.captureStart = attempt.captureStart)
    (hplace : sql.IsPlace attempt.captureStart)
    (ih : Follows sql tokens blocks rest later) :
    ∃ value result, sql.slice (min attempt.captureStart token.start) token.start = .ok value ∧
      (constraint.all (·.matchesWhole value.trimEnd) = false ∧ result = none ∨
        constraint.all (·.matchesWhole value.trimEnd) ∧
          matchBlocks sql rest (Attempt.afterLiteral
            { attempt with bindings := attempt.bindings.insert name value } sql token later) later =
            .ok result) ∧ Comes sql tokens blocks matcher.start matcher.startToken matcher
        (later.length + rest.length + 1) result := by
  have htoken : token ∈ tokens := mem_of_getElem? (getElem?_of_drop hlater)
  have hboundary := hlaid.isPlace_start htoken
  have hmin : sql.IsPlace (min attempt.captureStart token.start) := by
    rcases Nat.le_total attempt.captureStart token.start with hle | hle
    · rwa [Nat.min_eq_left hle]
    · rwa [Nat.min_eq_right hle]
  obtain ⟨value, hvalue⟩ :=
    exists_slice?_of_isPlace hmin hboundary (Nat.min_le_right _ _)
  have hturn : turn sql tokens blocks matcher =
      captureTurn sql tokens blocks matcher token name constraint :=
    h.turn_eq (getElem?_of_drop hlater)
  simp only [captureTurn, h.literalAfter?, hopened, his, hstart, hvalue, isEmpty_nil,
    Bool.and_self, if_true] at hturn
  refine ⟨value, ?_⟩
  rw [slice_eq_ok_iff.2 hvalue]
  cases hmatch : constraint.all (·.matchesWhole value.trimEnd) with
  | false =>
    simp only [hmatch, Bool.false_eq_true, if_false] at hturn
    exact ⟨none, rfl, .inl ⟨rfl, rfl⟩, .restart (Nat.le_add_left 1 _) (leads_of_turn hturn)⟩
  | true =>
    simp only [hmatch, if_true] at hturn
    have hliteral := drop_succ_of_drop h.blocks
    obtain ⟨result, hresult, hcomes⟩ := exists_comes_pass
      { attempt with bindings := attempt.bindings.insert name value } hlaid hturn
      (Nat.succ_ne_zero _) (lt_length_of_drop hliteral) (drop_succ_of_drop hliteral) hlater rfl
      hquote (by rw [hbindings]) ih
    exact ⟨result, rfl, .inr ⟨rfl, hresult⟩, hcomes⟩

theorem turn_literal {text : Text} (hblocks : blocks.drop matcher.block = .literal text :: rest)
    (hlater : tokens.drop matcher.cursor = token :: later) :
    turn sql tokens blocks matcher = literalTurn sql tokens blocks matcher token text := by
  rw [turn, getElem?_of_drop hlater, getElem?_of_drop hblocks]

theorem miss_of_started (hstarted : matcher.block ≠ 0) :
    matcher.miss = .next { cursor := matcher.startToken + 1 } := by
  simp [miss, isStarted, hstarted, restart]

theorem matchBlocks_of_takeLead {name : Text} {taken : Option (Attempt × List Token)}
    (hrest : rest.head?.all PatternBlock.isPlaceholder)
    (htake : takeLead sql name constraint attempt later = .ok taken)
    (h : taken = none ∧ result = none ∨ ∃ attempt' later', taken = some (attempt', later') ∧
      matchBlocks sql rest attempt' later' = .ok result) :
    matchBlocks sql (.placeholder name (some constraint) :: rest) attempt later = .ok result := by
  rw [matchBlocks, htake]
  · rcases h with ⟨rfl, rfl⟩ | ⟨attempt', later', rfl, hresult⟩
    · rfl
    · exact hresult
  · rintro text blocks rfl
    simp [PatternBlock.isPlaceholder] at hrest

/-- A variable that has no literal to stop at takes what its constraint matches. -/
theorem Stands.exists_comes_lead {name : Text}
    (h : Stands sql tokens blocks matcher attempt (.placeholder name (some constraint) :: rest)
      later) (hlaid : Laid sql tokens) (hrest : rest.head?.all PatternBlock.isPlaceholder)
    (ih : ∀ later, Follows sql tokens blocks rest later) :
    ∃ result,
      matchBlocks sql (.placeholder name (some constraint) :: rest) attempt later = .ok result ∧
      Comes sql tokens blocks matcher.start matcher.startToken matcher
        (later.length + (rest.length + 1)) result := by
  cases later with
  | nil =>
    exact ⟨none, matchBlocks_of_takeLead hrest rfl (.inl ⟨rfl, rfl⟩),
      .restart (by omega) (leads_of_turn (turn_of_drop_eq_nil h.started h.tokensLeft))⟩
  | cons token later =>
    have hnone : literalAfter? blocks matcher.block = none := by
      rw [literalAfter?, ← head?_drop, drop_succ_of_drop h.blocksLeft]
      rcases rest with - | ⟨text | ⟨other, constraint'⟩, rest⟩
      · rfl
      · simp [PatternBlock.isPlaceholder] at hrest
      · rfl
    have hturn : turn sql tokens blocks matcher =
        leadTurn sql tokens blocks matcher token name constraint := by
      rw [turn, getElem?_of_drop h.tokensLeft, getElem?_of_drop h.blocksLeft]
      simp [hnone]
    have hstart := startAt_of_started h.started token
    have hmiss : matcher.miss = .next { cursor := (matcher.startAt token).startToken + 1 } := by
      rw [hstart]
      exact miss_of_started h.started
    obtain ⟨taken, result, htake, hresult, hcomes⟩ := Matcher.exists_comes_lead attempt hlaid hturn
      hmiss h.blocksLeft h.tokensLeft h.opened h.quote h.bindings ih
    rw [hstart] at hcomes
    exact ⟨result, matchBlocks_of_takeLead hrest htake hresult, hcomes⟩

/-- An attempt that has started comes to what `matchBlocks` says. -/
theorem exists_comes (hlaid : Laid sql tokens) :
    ∀ {rest : List PatternBlock} {attempt : Attempt} {later : List Token} {matcher : Matcher},
      Pattern.Stopped rest → rest ≠ [] → Stands sql tokens blocks matcher attempt rest later →
      ∃ result, matchBlocks sql rest attempt later = .ok result ∧
        Comes sql tokens blocks matcher.start matcher.startToken matcher
          (later.length + rest.length) result
  | [], _, _, _, _, hne, _ => absurd rfl hne
  | .literal text :: rest, attempt, [], matcher, _, _, hstands =>
    ⟨none, rfl, .restart (Nat.le_add_left 1 _)
      (leads_of_turn (turn_of_drop_eq_nil hstands.started hstands.tokensLeft))⟩
  | .literal text :: rest, attempt, token :: later, matcher, hstopped, _, hstands => by
    have hturn : turn sql tokens blocks matcher =
        literalTurn sql tokens blocks matcher token text :=
      turn_literal hstands.blocksLeft hstands.tokensLeft
    cases his : token.is text with
    | false =>
      refine ⟨none, by simp [matchBlocks, his], .restart (Nat.le_add_left 1 _) ?_⟩
      rw [literalTurn, his, Bool.false_and, if_neg Bool.false_ne_true,
        miss_of_started hstands.started] at hturn
      exact leads_of_turn hturn
    | true =>
      have hstarted : matcher.isStarted := by simp [isStarted, hstands.started]
      rw [literalTurn, his, hstarted, Bool.true_or, Bool.and_self, if_pos rfl,
        startAt_of_started hstands.started] at hturn
      obtain ⟨result, hresult, hcomes⟩ := exists_comes_pass attempt hlaid hturn (Nat.succ_ne_zero _)
        (lt_length_of_drop hstands.blocksLeft) (drop_succ_of_drop hstands.blocksLeft)
        hstands.tokensLeft hstands.opened hstands.quote hstands.bindings
        (fun _ _ => exists_comes hlaid (hstopped.tail))
      refine ⟨result, by simpa [matchBlocks, his] using hresult, hcomes.mono ?_⟩
      simp only [length_cons]
      omega
  | .placeholder name constraint :: .literal text :: rest, attempt, later, matcher, hstopped, _,
      hstands => by
    have hcapturing : Capturing blocks matcher name constraint text rest :=
      ⟨hstands.started, hstands.blocksLeft⟩
    have hleads := hcapturing.leads sql hstands.tokensLeft
    have hsame : boundary? matcher.inPatternQuote text matcher.opened later =
        boundary? attempt.inPatternQuote text [] later := by
      rw [hstands.opened, hstands.quote]
    cases hboundary : boundary? attempt.inPatternQuote text [] later with
    | none =>
      obtain ⟨few, hle, hrestart⟩ := hleads.1 (hsame.trans hboundary)
      refine ⟨none, by simp [matchBlocks, hboundary], .restart (Nat.le_trans hle ?_) hrestart⟩
      simp only [length_cons]
      omega
    | some found =>
      obtain ⟨boundary, behind⟩ := found
      obtain ⟨few, cursor, hle, his, hcursor, hto⟩ :=
        hleads.2 boundary behind (hsame.trans hboundary)
      have hbehind : Capturing blocks { matcher with cursor := cursor, opened := [] } name
          constraint text rest := ⟨hstands.started, hstands.blocksLeft⟩
      obtain ⟨value, result, hslice, hresult, hcomes⟩ := hbehind.exists_comes hlaid hcursor rfl his
        hstands.quote hstands.bindings (hstands.captureStart rfl) hstands.isPlace
        (fun _ _ => exists_comes hlaid (hstopped.tail.tail))
      refine ⟨result, ?_, (hcomes.of_leads hto).mono ?_⟩
      · rw [matchBlocks, hboundary]
        simp only [hslice, ok_bind]
        rcases hresult with ⟨hmatch, rfl⟩ | ⟨hmatch, hresult⟩
        · simp only [hmatch]
          rfl
        · simpa only [hmatch, if_true] using hresult
      · simp only [length_cons]
        omega
  | .placeholder name (some constraint) :: [], attempt, later, matcher, hstopped, _, hstands =>
    hstands.exists_comes_lead hlaid rfl fun _ _ _ => exists_comes hlaid hstopped.tail
  | .placeholder name (some constraint) :: .placeholder other constraint' :: rest, attempt, later,
      matcher, hstopped, _, hstands =>
    hstands.exists_comes_lead hlaid rfl fun _ _ _ => exists_comes hlaid hstopped.tail
  | .placeholder name none :: [], _, _, _, hstopped, _, _ => by
    obtain ⟨_, _, hnil⟩ := hstopped [] name [] rfl
    cases hnil
  | .placeholder name none :: .placeholder other constraint :: rest, _, _, _, hstopped, _, _ => by
    obtain ⟨_, _, hcons⟩ := hstopped [] name _ rfl
    cases hcons

end Attempts

/-! ## All attempts -/

/-- How the loop ends when a search has the result. -/
def Outcome.ofResult : Option PatternMatch → Outcome
  | some result => .found result
  | none => .exhausted

open Search (matchAt firstFrom)

/-- The attempt at a token comes to what `matchAt` says. -/
theorem exists_comes_first (hlaid : Laid sql tokens) (hsound : Pattern.Sound blocks) {index : Nat}
    {token : Token} {later : List Token} (hlater : tokens.drop index = token :: later) :
    ∃ result, matchAt sql blocks token later = .ok result ∧
      Comes sql tokens blocks token.start index { cursor := index }
        ((token :: later).length + blocks.length) result := by
  have hget := getElem?_of_drop hlater
  obtain ⟨hne, hhead, hstopped⟩ := hsound
  rcases blocks with - | ⟨text | ⟨name, - | constraint⟩, rest⟩
  · exact absurd rfl hne
  · have hturn : turn sql tokens (.literal text :: rest) { cursor := index } =
        literalTurn sql tokens (.literal text :: rest) { cursor := index } token text :=
      turn_literal rfl hlater
    by_cases hfirst : (token.is text && !token.inQuotes)
    · rw [literalTurn, if_pos (by simpa [isStarted] using hfirst)] at hturn
      have hrest : (PatternBlock.literal text :: rest).drop 1 = rest := rfl
      obtain ⟨result, hresult, hcomes⟩ := exists_comes_pass
        ⟨token.start, token.start, false, []⟩ hlaid hturn (Nat.succ_ne_zero _)
        (Nat.le_add_left 1 _) hrest hlater rfl rfl rfl
        (fun _ _ => exists_comes hlaid hstopped.tail)
      refine ⟨result, by rw [matchAt, if_pos hfirst, hresult], hcomes.mono ?_⟩
      simp only [length_cons]
      omega
    · rw [literalTurn, if_neg (by simpa [isStarted] using hfirst)] at hturn
      exact ⟨none, by rw [matchAt, if_neg hfirst],
        .restart (Nat.le_add_left 1 _) (leads_of_turn hturn)⟩
  · simp [PatternBlock.isFree] at hhead
  · have hturn : turn sql tokens (.placeholder name (some constraint) :: rest)
        { cursor := index } = leadTurn sql tokens (.placeholder name (some constraint) :: rest)
        { cursor := index } token name constraint := by
      simp [turn, hget, isStarted]
    obtain ⟨taken, result, htake, hresult, hcomes⟩ := exists_comes_lead
      ⟨token.start, token.start, false, []⟩ hlaid hturn rfl rfl hlater rfl rfl rfl
      (fun _ _ _ => exists_comes hlaid hstopped.tail)
    refine ⟨result, ?_, hcomes⟩
    rw [matchAt, htake]
    rcases hresult with ⟨rfl, rfl⟩ | ⟨attempt', later', rfl, hresult⟩
    · rfl
    · exact hresult

/-- The loop tries one token after the other, as `firstFrom` does. -/
theorem exists_run (hlaid : Laid sql tokens) (hsound : Pattern.Sound blocks) (later : List Token)
    {index : Nat} (hlater : tokens.drop index = later) :
    ∃ result, firstFrom sql blocks index later = .ok result ∧
      run sql tokens blocks (later.length * (tokens.length + blocks.length) + 1)
        { cursor := index } = some (.ofResult result) := by
  induction later generalizing index with
  | nil =>
    refine ⟨none, rfl, ?_⟩
    rw [run, turn, ← head?_drop, hlater]
    rfl
  | cons token later ih =>
    obtain ⟨result, hresult, hcomes⟩ := exists_comes_first hlaid hsound hlater
    have hlength : (token :: later).length ≤ tokens.length := by
      rw [← hlater, length_drop]
      omega
    rw [firstFrom, hresult, ok_bind, length_cons, Nat.succ_mul]
    cases hcomes with
    | found hrun => exact ⟨_, rfl, run_mono (by omega) hrun⟩
    | @restart few hle hleads =>
      obtain ⟨result, hresult, hrun⟩ := ih (drop_succ_of_drop hlater)
      exact ⟨result, hresult, run_mono (by omega) ((hleads _).trans hrun)⟩

end Simulation

theorem Outcome.ofResult_ne (result : Option PatternMatch) : ofResult result ≠ .unbounded ∧
    ofResult result ≠ .outOfRange ∧ ofResult result ≠ .badSlice := by
  cases result <;> simp [ofResult]

theorem Outcome.ofResult_injective {result result' : Option PatternMatch}
    (h : ofResult result = ofResult result') : result = result' := by
  cases result <;> cases result' <;> simp_all [ofResult]

/-- The loop ends on every script, wherever it starts, within a number of turns that is quadratic in
the number of tokens. It ends with the match that `search` finds, or with no token left to start at,
and not at a block or token that does not exist, nor at a bad cut of the text, nor at a variable
that has no literal to stop at. -/
theorem run_ends (source : Text) (pattern : Pattern)
    (hpattern : Pattern.compile source = .ok pattern) (sql : Text) (first : Nat) :
    ∃ result, search sql (tokens sql) pattern first = .ok result ∧
      (∃ turns ≤ (tokens sql).length * ((tokens sql).length + pattern.blocks.length) + 1,
        run sql (tokens sql) pattern.blocks turns { cursor := first } =
          some (.ofResult result)) ∧
      ∀ turns outcome,
        run sql (tokens sql) pattern.blocks turns { cursor := first } = some outcome →
          outcome = .ofResult result ∧ outcome ≠ .unbounded ∧ outcome ≠ .outOfRange ∧
            outcome ≠ .badSlice := by
  obtain ⟨result, hresult, hrun⟩ := exists_run (laid_tokens sql)
    (Pattern.sound_of_compile hpattern) ((tokens sql).drop first) rfl
  refine ⟨result, hresult, ⟨_, ?_, hrun⟩, fun turns outcome houtcome => ?_⟩
  · rw [List.length_drop]
    exact Nat.succ_le_succ (Nat.mul_le_mul_right _ (Nat.sub_le _ _))
  · obtain rfl := run_unique houtcome hrun
    exact ⟨rfl, Outcome.ofResult_ne result⟩

/-- The loop gives up one attempt at a `;` and finds a match; and it ends where there is no token to
start at. -/
theorem run_ends_columns :
    (Pattern.compile Search.columns.source).toOption = some Search.columns ∧
    (∃ turns ≤ 341, run Search.statements (tokens Search.statements) Search.columns.blocks turns
      { cursor := 0 } =
        some (.found ⟨10, 39, 3, [("columns".toList, "(b; 'c from)'), d ".toList)]⟩)) ∧
    ∃ turns, run Search.statements (tokens Search.statements) Search.columns.blocks turns
      { cursor := 100 } = some .exhausted := by
  have hcompile : (Pattern.compile Search.columns.source).toOption = some Search.columns := by
    decide +kernel
  have hfound : (search Search.statements (tokens Search.statements) Search.columns 0).toOption =
      some (some ⟨10, 39, 3, [("columns".toList, "(b; 'c from)'), d ".toList)]⟩) := by
    decide +kernel
  have hnone : (search Search.statements (tokens Search.statements) Search.columns 100).toOption =
      some none := by decide +kernel
  have hlength : (tokens Search.statements).length = 17 := by decide +kernel
  refine ⟨hcompile, ?_, ?_⟩
  · obtain ⟨result, hresult, ⟨turns, hle, hrun⟩, -⟩ :=
      run_ends _ _ (eq_ok_of_toOption hcompile) Search.statements 0
    rw [hresult] at hfound
    obtain rfl := Option.some.inj hfound
    rw [hlength] at hle
    exact ⟨turns, hle, hrun⟩
  · obtain ⟨result, hresult, ⟨turns, -, hrun⟩, -⟩ :=
      run_ends _ _ (eq_ok_of_toOption hcompile) Search.statements 100
    rw [hresult] at hnone
    obtain rfl := Option.some.inj hnone
    exact ⟨turns, hrun⟩

end Matcher

end SqlScript
