import SqlScript.Proofs.QuotedVariable
import SqlScript.Proofs.SpanTruth

/-!
# What a match leaves out

The blocks of a pattern take extents of the text one after another : a literal takes a token, and a
variable takes the text that it is bound to (`Search.Stands`). A variable with a constraint that
stands first, or has no literal to stop at, takes what its expression matches, and that may end
inside of a token. The next block goes on where it ended only if that block is a variable with a
literal behind it (`Search.resumes`). Every other block goes on at the next token, and what is left
of the token is in no extent.

This is all that a match leaves out. A byte of a token inside of a match is in an extent, or it
belongs to the rest of a token that such a variable has torn (`Search.Torn`), and never both
(`Search.search_takes_all_but_torn`). The extents are built up from the last block to the first :
each one is put before the ones after it (`Search.Spread.cons`).
-/

namespace SqlScript

open List Text

/-- The name of a variable. -/
def PatternBlock.name? : PatternBlock → Option Text
  | placeholder name _ => some name
  | literal _ => none

/-- The offset lies in the token. -/
def Token.Holds (token : Token) (n : Nat) : Prop :=
  token.start ≤ n ∧ n < token.stop

namespace Search

/-- Whether the first block is a variable with a literal behind it. -/
def resumes : List PatternBlock → Bool
  | .placeholder _ _ :: .literal _ :: _ => true
  | _ => false

/-- Whether the first block is a variable that takes what its constraint matches, and the next block
does not go on where it ends. A variable with a literal behind it is one only at the start. -/
def tears (isFirst : Bool) : List PatternBlock → Bool
  | .placeholder _ (some _) :: .literal _ :: _ => isFirst
  | .placeholder _ (some _) :: next :: blocks => !resumes (next :: blocks)
  | _ => false

/-- The block takes the extent : a literal takes a token, and a variable what it is bound to. -/
def Stands (sql : Text) (bindings : Parameters) : PatternBlock → Extent → Prop
  | .literal text, extent =>
    ∃ token ∈ tokens sql, token.is text = true ∧ extent = ⟨token.start, token.stop⟩
  | .placeholder name _, extent =>
    ∃ value, bindings.get? name = some value ∧ sql.slice? extent.start extent.stop = some value

/-- The offset lies behind the end of a variable that ends inside of the token, and the block after
the variable does not go on there. The blocks are the first ones of a pattern unless it has
started. -/
def Torn (started : Bool) (blocks : List PatternBlock) (extents : List Extent) (token : Token)
    (n : Nat) : Prop :=
  ∃ (i : Nat) (extent : Extent), extents[i]? = some extent ∧
    tears (!started && i == 0) (blocks.drop i) = true ∧ token.start < extent.stop ∧ extent.stop ≤ n

/-- The blocks take the extents, in order and between the two offsets, and of the tokens there they
take all but what is torn off. -/
structure Spread (sql : Text) (bindings : Parameters) (started : Bool)
    (blocks : List PatternBlock) (extents : List Extent) (start stop : Nat) : Prop where
  stands : List.Forall₂ (Stands sql bindings) blocks extents
  ordered : extents.Pairwise fun a b => a.stop ≤ b.start
  bounds : ∀ extent ∈ extents, start ≤ extent.start ∧ extent.start ≤ extent.stop ∧
    extent.stop ≤ stop
  taken_iff : ∀ token ∈ tokens sql, ∀ n, token.Holds n → start ≤ n → n < stop →
    ((∃ extent ∈ extents, extent.contains n = true) ↔ ¬Torn started blocks extents token n)

section Spread

variable {sql : Text} {bindings : Parameters} {started : Bool} {blocks : List PatternBlock}
  {extents : List Extent} {start stop : Nat}

theorem torn_cons {block : PatternBlock} {extent : Extent} {token : Token} {n : Nat} :
    Torn started (block :: blocks) (extent :: extents) token n ↔
      (tears (!started) (block :: blocks) ∧ token.start < extent.stop ∧ extent.stop ≤ n) ∨
        Torn true blocks extents token n := by
  constructor
  · rintro ⟨- | i, found, hget, htorn⟩
    · obtain rfl : extent = found := by simpa using hget
      exact .inl (by simpa using htorn)
    · exact .inr ⟨i, found, by simpa using hget, by simpa using htorn⟩
  · rintro (htorn | ⟨i, found, hget, htorn⟩)
    · exact ⟨0, extent, rfl, by simpa using htorn⟩
    · exact ⟨i + 1, found, by simpa using hget, by simpa using htorn⟩

theorem spread_nil (h : stop ≤ start) : Spread sql bindings started [] [] start stop :=
  ⟨.nil, .nil, by simp, fun _ _ n _ hn hn' => by omega⟩

/-- One more block takes an extent before the others. What lies between its end and theirs is torn
off. -/
theorem Spread.cons (h : Spread sql bindings true blocks extents start stop) {block : PatternBlock}
    {extent : Extent} (hstands : Stands sql bindings block extent)
    (hextent : extent.start ≤ extent.stop) (hstart : extent.stop ≤ start)
    (hstop : extent.stop ≤ stop)
    (hbetween : ∀ token ∈ tokens sql, ∀ n, token.Holds n → extent.stop ≤ n → n < start → n < stop →
      tears (!started) (block :: blocks) ∧ token.start < extent.stop)
    (hbehind : ∀ token ∈ tokens sql, ∀ n, token.Holds n → start ≤ n →
      tears (!started) (block :: blocks) → extent.stop ≤ token.start) :
    Spread sql bindings started (block :: blocks) (extent :: extents) extent.start stop := by
  refine ⟨.cons hstands h.stands, pairwise_cons.2 ⟨fun other hother => ?_, h.ordered⟩, ?_, ?_⟩
  · exact Nat.le_trans hstart (h.bounds other hother).1
  · refine forall_mem_cons.2 ⟨⟨Nat.le_refl _, hextent, hstop⟩, fun other hother => ?_⟩
    obtain ⟨hle, hle', hle''⟩ := h.bounds other hother
    exact ⟨by omega, hle', hle''⟩
  · intro token hmem n hn hin hin'
    simp only [mem_cons, exists_eq_or_imp, torn_cons, Extent.contains_iff]
    have hlater : ∀ other ∈ extents, start ≤ other.start ∧ start ≤ other.stop := by
      intro other hother
      obtain ⟨hle, hle', -⟩ := h.bounds other hother
      exact ⟨hle, by omega⟩
    rcases Nat.lt_or_ge n start with hlt | hge
    · -- no later extent reaches the offset, so the first one decides
      have hnone : ¬∃ other ∈ extents, other.start ≤ n ∧ n < other.stop := by
        rintro ⟨other, hother, hcontains⟩
        have hfirst := (hlater other hother).1
        omega
      have hnone' : ¬Torn true blocks extents token n := by
        rintro ⟨i, other, hget, -, -, hle⟩
        have hfirst := (hlater other (mem_of_getElem? hget)).2
        omega
      have hgap := hbetween token hmem n hn
      constructor
      · rintro (hcontains | hother) (⟨-, -, hle⟩ | htorn)
        · omega
        · exact hnone' htorn
        · exact hnone hother
        · exact hnone hother
      · intro hnot
        refine .inl ⟨hin, ?_⟩
        by_contra hend
        obtain ⟨hrest, hbefore⟩ := hgap (by omega) hlt hin'
        exact hnot (.inl ⟨hrest, hbefore, by omega⟩)
    · have hfirst : ¬(extent.start ≤ n ∧ n < extent.stop) := by omega
      have hfirst' : ¬(tears (!started) (block :: blocks) ∧ token.start < extent.stop ∧
          extent.stop ≤ n) := by
        rintro ⟨hrest, hbefore, -⟩
        have hle := hbehind token hmem n hn hge hrest
        omega
      rw [or_iff_right hfirst, or_iff_right hfirst']
      simpa only [Extent.contains_iff] using h.taken_iff token hmem n hn hge hin'

end Spread

/-! ## Tokens that are passed -/

section Tokens

variable {sql : Text} {front run : List Token} {token : Token} {n : Nat}

/-- A token that is passed ends before the next one starts. -/
theorem stop_le_startOf (htokens : tokens sql = front ++ run) (hmem : token ∈ front) :
    token.stop ≤ startOf sql run := by
  have hlaid := laid_tokens sql
  cases run with
  | nil =>
    rw [append_nil] at htokens
    exact le_byteSize_of_slice? (hlaid.slice token (htokens ▸ hmem))
  | cons next run =>
    have hordered := hlaid.ordered
    rw [htokens] at hordered
    exact (pairwise_append.1 hordered).2.2 token hmem next mem_cons_self

theorem startOf_le (htokens : tokens sql = front ++ run) (hmem : token ∈ run) :
    startOf sql run ≤ token.start := by
  have hlaid : Laid sql run := (laid_tokens sql).sublist (by
    rw [htokens]
    exact sublist_append_right _ _)
  cases run with
  | nil => cases hmem
  | cons next run => exact hlaid.start_le hmem

/-- A token that holds an offset before the next token is passed. -/
theorem mem_front_of_lt (htokens : tokens sql = front ++ run) (hmem : token ∈ tokens sql)
    (hn : token.Holds n) (hlt : n < startOf sql run) : token ∈ front := by
  rw [htokens] at hmem
  refine (mem_append.1 hmem).resolve_right fun hrun => ?_
  have hle := startOf_le htokens hrun
  have hstart := hn.1
  omega

/-- A token that holds an offset behind the start of the next token is not passed. -/
theorem mem_run_of_le (htokens : tokens sql = front ++ run) (hmem : token ∈ tokens sql)
    (hn : token.Holds n) (hle : startOf sql run ≤ n) : token ∈ run := by
  rw [htokens] at hmem
  refine (mem_append.1 hmem).resolve_left fun hfront => ?_
  have hle' := stop_le_startOf htokens hfront
  have hstop := hn.2
  omega

end Tokens

/-! ## One block more -/

/-- The offset from which on the blocks take the text, if a capture would start at the given one. -/
def resumeAt (sql : Text) (blocks : List PatternBlock) (captureStart : Nat)
    (run : List Token) : Nat :=
  if resumes blocks then captureStart else startOf sql run

section Blocks

variable {sql : Text} {bindings : Parameters} {started : Bool} {blocks : List PatternBlock}
  {extents : List Extent} {front segment later : List Token} {name value : Text} {stop : Nat}

theorem resumeAt_startOf (sql : Text) (blocks : List PatternBlock) (run : List Token) :
    resumeAt sql blocks (startOf sql run) run = startOf sql run := by
  unfold resumeAt
  split <;> rfl

theorem Spread.literal {text : Text} {token : Token}
    (h : Spread sql bindings true blocks extents (startOf sql later) stop)
    (htokens : tokens sql = front ++ token :: later) (his : token.is text)
    (hstop : token.stop ≤ stop) :
    Spread sql bindings started (.literal text :: blocks) (⟨token.start, token.stop⟩ :: extents)
      token.start stop := by
  have hpassed : tokens sql = (front ++ [token]) ++ later := by rw [htokens]; simp
  have hmem : token ∈ tokens sql := by rw [htokens]; simp
  have hnext := stop_le_startOf hpassed (mem_append_right front mem_cons_self)
  have hstands : Stands sql bindings (.literal text) ⟨token.start, token.stop⟩ :=
    ⟨token, hmem, his, rfl⟩
  refine h.cons hstands (Nat.le_of_lt ((laid_tokens sql).start_lt_stop hmem)) hnext hstop
    (fun other hother n hn hfrom hto _ => ?_) (fun _ _ _ _ _ hrest => by cases hrest)
  -- no token has a byte between the token of the literal and the next one
  have hafter : token.stop ≤ n := hfrom
  have hend := hn.2
  rcases mem_append.1 (mem_front_of_lt hpassed hother hn hto) with hfront | hfront
  · have hbefore : other.stop ≤ token.start := stop_le_startOf htokens hfront
    have hlt := (laid_tokens sql).start_lt_stop hmem
    omega
  · obtain rfl := mem_singleton.1 hfront
    omega

/-- A variable takes the text up to the literal after it. -/
theorem Spread.capture {text : Text} {constraint : Option Constraint} {start boundary : Nat}
    (h : Spread sql bindings true (.literal text :: blocks) extents boundary stop)
    (hget : bindings.get? name = some value) (hvalue : sql.slice? start boundary = some value) :
    Spread sql bindings true (.placeholder name constraint :: .literal text :: blocks)
      (⟨start, boundary⟩ :: extents) start stop := by
  have hsize := add_byteSize_of_slice? hvalue
  have hstands : Stands sql bindings (.placeholder name constraint) ⟨start, boundary⟩ :=
    ⟨value, hget, hvalue⟩
  have hstop : boundary ≤ stop := by
    obtain ⟨extent, extents, -, -, rfl⟩ := forall₂_cons_left_iff.1 h.stands
    obtain ⟨hfirst, hextent, hlast⟩ := h.bounds extent mem_cons_self
    omega
  exact h.cons hstands (show start ≤ boundary by omega) (Nat.le_refl _) hstop
    (fun _ _ n _ hfrom hto _ => absurd hto (Nat.not_lt.2 hfrom))
    (fun _ _ _ _ _ hrest => by cases constraint <;> cases hrest)

/-- A variable that takes what its constraint matches tears a token unless it is the last block, or
the next one goes on where it ends. -/
theorem tears_lead (name : Text) (constraint : Constraint)
    (hstarted : started → blocks.head?.all PatternBlock.isPlaceholder) :
    tears (!started) (.placeholder name (some constraint) :: blocks) =
      (!blocks.isEmpty && !resumes blocks) := by
  rcases blocks with - | ⟨text | ⟨other, constraint'⟩, blocks⟩
  · rfl
  · cases started with
    | false => rfl
    | true => cases hstarted rfl
  · simp [tears]

theorem Spread.lead {constraint : Constraint} {middle : Nat}
    (h : Spread sql bindings true blocks extents (resumeAt sql blocks middle later) stop)
    (htokens : tokens sql = front ++ (segment ++ later))
    (hstarted : started → blocks.head?.all PatternBlock.isPlaceholder)
    (hget : bindings.get? name = some value)
    (hvalue : sql.slice? (startOf sql (segment ++ later)) middle = some value)
    (hpassed : ∀ token ∈ segment, token.start < middle) (hnext : middle ≤ startOf sql later)
    (hstop : middle ≤ stop) (hlast : blocks = [] → stop = middle) :
    Spread sql bindings started (.placeholder name (some constraint) :: blocks)
      (⟨startOf sql (segment ++ later), middle⟩ :: extents) (startOf sql (segment ++ later))
      stop := by
  have hsize := add_byteSize_of_slice? hvalue
  have hahead : tokens sql = (front ++ segment) ++ later := by rw [htokens, append_assoc]
  have hstands : Stands sql bindings (.placeholder name (some constraint))
      ⟨startOf sql (segment ++ later), middle⟩ := ⟨value, hget, hvalue⟩
  have htears := tears_lead name constraint hstarted
  have hresume : middle ≤ resumeAt sql blocks middle later := by
    unfold resumeAt
    split
    · exact Nat.le_refl _
    · exact hnext
  refine h.cons hstands (show startOf sql (segment ++ later) ≤ middle by omega) hresume hstop
    (fun other hother n hn hfrom hto hin => ?_) (fun other hother n hn hto hrest => ?_)
  · have hafter : middle ≤ n := hfrom
    unfold resumeAt at hto
    split at hto
    · exact absurd hto (Nat.not_lt.2 hafter)
    · rename_i hresumes
      have hnonempty : blocks.isEmpty = false := by
        rw [isEmpty_eq_false_iff]
        intro hnil
        have hend := hlast hnil
        omega
      refine ⟨by rw [htears, hnonempty]; simpa using hresumes, ?_⟩
      rcases mem_append.1 (mem_front_of_lt hahead hother hn hto) with hmem | hmem
      · have hbefore := stop_le_startOf htokens hmem
        have hend := hn.2
        omega
      · exact hpassed other hmem
  · rw [htears, Bool.and_eq_true, Bool.not_eq_true', Bool.not_eq_true'] at hrest
    rw [resumeAt, if_neg (by simp [hrest.2])] at hto
    exact Nat.le_trans hnext (startOf_le hahead (mem_run_of_le hahead hother hn hto))

end Blocks

/-! ## The blocks of a match -/

section Takes

variable {sql : Text} {started : Bool} {blocks : List PatternBlock} {attempt finished : Attempt}
  {run later : List Token} {segments : List (List Token)}

/-- What a variable takes by its constraint : a part of the text that starts with the first token.
The tokens that start in it are passed. -/
theorem exists_of_takeLead {name : Text} {constraint : Constraint} {attempt' : Attempt}
    {segment : List Token}
    (h : takeLead sql name constraint attempt (segment ++ later) = .ok (some (attempt', later))) :
    ∃ stop value, sql.slice? (startOf sql (segment ++ later)) stop = some value ∧
      attempt' = ⟨stop, stop, attempt.inPatternQuote, attempt.bindings.insert name value⟩ ∧
      (∀ token ∈ segment, token.start < stop) ∧ stop ≤ startOf sql later := by
  generalize hrun : segment ++ later = run at h
  cases run with
  | nil => cases h
  | cons token rest =>
    rw [takeLead] at h
    obtain ⟨text, -, h⟩ := exists_of_bind_eq_ok h
    cases hmatch : constraint.matchLead? text with
    | none =>
      rw [hmatch] at h
      cases h
    | some size =>
      rw [hmatch] at h
      obtain ⟨value, hvalue, h⟩ := exists_of_bind_eq_ok h
      obtain ⟨rfl, hlater⟩ := Prod.mk.inj (Option.some.inj (Except.ok.inj h))
      have hslice := slice_eq_ok_iff.1 hvalue
      have hsegment : segment =
          (token :: rest).takeWhile fun other => decide (other.start < token.start + size) := by
        have happend : segment ++ later = (token :: rest).takeWhile
            (fun other => decide (other.start < token.start + size)) ++ later := by
          rw [hrun, ← hlater, takeWhile_append_dropWhile]
        exact append_cancel_right happend
      refine ⟨_, value, hslice, rfl, ?_, ?_⟩
      · intro other hother
        rw [hsegment] at hother
        simpa using List.all_eq_true.1 all_takeWhile other hother
      · cases later with
        | nil => exact le_byteSize_of_slice? hslice
        | cons next later =>
          have hnot := head?_dropWhile_not
            (fun other : Token => decide (other.start < token.start + size)) (token :: rest)
          rw [hlater] at hnot
          simpa [startOf] using hnot

/-- How far an attempt has come : the tokens before `run` are passed. -/
structure Underway (sql : Text) (started : Bool) (attempt : Attempt) (front run : List Token) :
    Prop where
  tokens : SqlScript.tokens sql = front ++ run
  stop_le : attempt.stop ≤ attempt.captureStart
  captureStart_le : attempt.captureStart ≤ startOf sql run
  first : started = false → attempt.captureStart = startOf sql run

theorem Underway.stop_le_startOf {front : List Token} (h : Underway sql started attempt front run) :
    attempt.stop ≤ startOf sql run :=
  Nat.le_trans h.stop_le h.captureStart_le

/-- A variable that takes what its constraint matches starts at a token. -/
theorem Underway.resumeAt_lead {front : List Token} {name : Text} {constraint : Option Constraint}
    (h : Underway sql started attempt front run)
    (hstarted : started → blocks.head?.all PatternBlock.isPlaceholder) :
    resumeAt sql (.placeholder name constraint :: blocks) attempt.captureStart run =
      startOf sql run := by
  cases started with
  | false => rw [h.first rfl, resumeAt_startOf]
  | true =>
    have hhead := hstarted rfl
    rcases blocks with - | ⟨text | ⟨other, constraint'⟩, blocks⟩
    · rfl
    · cases hhead
    · rfl

theorem get?_of_takes {name value : Text} {bindings : Parameters}
    (h : Takes sql started blocks attempt run segments finished)
    (hbindings : attempt.bindings = bindings.insert name value)
    (hname : name ∉ blocks.filterMap PatternBlock.name?) :
    finished.bindings.get? name = some value := by
  have hfree : ∀ constraint, PatternBlock.placeholder name constraint ∉ blocks :=
    fun constraint hmem => hname (mem_filterMap.2 ⟨_, hmem, rfl⟩)
  rw [h.get?_bindings hfree, hbindings, Parameters.get?_insert, if_pos rfl]

/-- The blocks of an attempt that succeeds are spread over the text that it takes. -/
theorem Takes.exists_spread (h : Takes sql started blocks attempt run segments finished)
    {front : List Token} (hunder : Underway sql started attempt front run)
    (hnames : (blocks.filterMap PatternBlock.name?).Nodup) :
    attempt.stop ≤ finished.stop ∧ ∃ extents, Spread sql finished.bindings started blocks extents
        (resumeAt sql blocks attempt.captureStart run) finished.stop := by
  induction h generalizing front with
  | done => exact ⟨Nat.le_refl _, [], spread_nil hunder.stop_le_startOf⟩
  | @literal started text blocks attempt finished token later segments his _ _ ih =>
    have htokens : tokens sql = (front ++ [token]) ++ later := by rw [hunder.tokens]; simp
    have hmem : token ∈ tokens sql := by rw [hunder.tokens]; simp
    have hlt := (laid_tokens sql).start_lt_stop hmem
    have hnext := stop_le_startOf htokens (mem_append_right front mem_cons_self)
    obtain ⟨hle, extents, hspread⟩ := ih ⟨htokens, hnext, Nat.le_refl _, by simp⟩ hnames
    have hstop : token.stop ≤ finished.stop := hle
    have hpassed : attempt.stop ≤ token.start := hunder.stop_le_startOf
    have hresume := resumeAt_startOf sql blocks later
    exact ⟨by omega, _, Spread.literal (hresume ▸ hspread) hunder.tokens his hstop⟩
  | @capture name text value constraint blocks attempt finished segment later boundary segments
      hboundary hvalue _ hrest ih =>
    have htokens : tokens sql = (front ++ segment) ++ boundary :: later := by
      rw [hunder.tokens, append_assoc]
    have hbefore : attempt.captureStart ≤ boundary.start :=
      Nat.le_trans hunder.captureStart_le (startOf_le hunder.tokens (by simp))
    obtain ⟨hname, hdistinct⟩ : name ∉ blocks.filterMap PatternBlock.name? ∧
        (blocks.filterMap PatternBlock.name?).Nodup := nodup_cons.1 hnames
    obtain ⟨hle, extents, hspread⟩ := ih ⟨htokens, hunder.stop_le, hbefore, by simp⟩ hdistinct
    rw [Nat.min_eq_left hbefore] at hvalue
    exact ⟨hle, _, Spread.capture hspread (get?_of_takes hrest rfl hname)
      (slice_eq_ok_iff.1 hvalue)⟩
  | @lead started name constraint blocks attempt attempt' finished segment later segments hstarted
      htaken hrest ih =>
    obtain ⟨stop, value, hvalue, rfl, hpassed, hnext⟩ := exists_of_takeLead htaken
    have htokens : tokens sql = (front ++ segment) ++ later := by
      rw [hunder.tokens, append_assoc]
    obtain ⟨hname, hdistinct⟩ : name ∉ blocks.filterMap PatternBlock.name? ∧
        (blocks.filterMap PatternBlock.name?).Nodup := nodup_cons.1 hnames
    obtain ⟨hle, extents, hspread⟩ := ih ⟨htokens, Nat.le_refl _, hnext, by simp⟩ hdistinct
    have hsize := add_byteSize_of_slice? hvalue
    have hfrom := hunder.stop_le_startOf
    have hstop : stop ≤ finished.stop := hle
    have hlast : blocks = [] → finished.stop = stop := by
      rintro rfl
      cases hrest
      rfl
    rw [hunder.resumeAt_lead hstarted]
    exact ⟨by omega, _, Spread.lead hspread hunder.tokens hstarted (get?_of_takes hrest rfl hname)
      hvalue hpassed hnext hstop hlast⟩

end Takes

/-- Every byte of a token inside of a match is taken by a block, a token by a literal or a part of
the text by a variable that is bound to it, or else it is behind the end of a variable inside of the
token : a variable that takes what its constraint matches, before a literal or before another such
variable. Bytes of the latter kind are taken by no block. -/
theorem search_takes_all_but_torn (sql : Text) (pattern : Pattern) (first : Nat)
    (found : PatternMatch) (hnames : (pattern.blocks.filterMap PatternBlock.name?).Nodup)
    (hfound : search sql (tokens sql) pattern first = .ok (some found)) :
    ∃ extents, Spread sql found.bindings false pattern.blocks extents found.start found.stop := by
  obtain ⟨segments, token, later, finished, hdrop, htakes, hmatch⟩ := exists_madeOf hfound
  have htokens : tokens sql = (tokens sql).take found.startToken ++ token :: later := by
    rw [← hdrop, List.take_append_drop]
  obtain ⟨-, extents, hspread⟩ := htakes.exists_spread
    ⟨htokens, Nat.le_refl _, Nat.le_refl _, fun _ => rfl⟩ hnames
  have hresume : resumeAt sql pattern.blocks (attemptAt token).captureStart (token :: later) =
      token.start := resumeAt_startOf sql pattern.blocks (token :: later)
  rw [hresume] at hspread
  rw [hmatch]
  exact ⟨extents, hspread⟩

/-- A run of digits. -/
def digits : Constraint where
  source := "[0-9]+".toList
  whole := .seq .empty (.seq (.assertion .textStart)
    (.seq (.repetition (.one (.folded (.range 48 57))) 1 none true) (.assertion .textEnd)))
  lead := .seq .empty (.seq (.assertion .textStart)
    (.repetition (.one (.folded (.range 48 57))) 1 none true))

/-- A number and what is between it and a word. -/
def numberAndRest : Pattern where
  source := "@([0-9]+)n @rest x".toList
  blocks := [.placeholder "n".toList (some digits), .placeholder "rest".toList none,
    .literal "x".toList]

/-- A number before a word. -/
def numberBeforeWord : Pattern where
  source := "@([0-9]+)n x".toList
  blocks := [.placeholder "n".toList (some digits), .literal "x".toList]

/-- A token that starts with digits, and a word. -/
def mixedToken : Text :=
  "12ab x".toList

theorem search_takes_all_of_mixed_token :
    (Pattern.compile numberAndRest.source).toOption = some numberAndRest ∧
    (numberAndRest.blocks.filterMap PatternBlock.name?).Nodup ∧
    (search mixedToken (tokens mixedToken) numberAndRest 0).toOption = some (some ⟨0, 6, 0,
      [("rest".toList, "ab ".toList), ("n".toList, "12".toList)]⟩) ∧
    ∃ extents, List.Forall₂ (Stands mixedToken
        [("rest".toList, "ab ".toList), ("n".toList, "12".toList)]) numberAndRest.blocks extents ∧
      ∀ token ∈ tokens mixedToken, ∀ n, token.Holds n → n < 6 →
        ∃ extent ∈ extents, extent.contains n = true := by
  have hsearch : (search mixedToken (tokens mixedToken) numberAndRest 0).toOption =
      some (some ⟨0, 6, 0, [("rest".toList, "ab ".toList), ("n".toList, "12".toList)]⟩) := by
    decide +kernel
  refine ⟨by decide +kernel, by decide, hsearch, ?_⟩
  obtain ⟨extents, hspread⟩ := search_takes_all_but_torn mixedToken numberAndRest 0 _ (by decide)
    (eq_ok_of_toOption hsearch)
  refine ⟨extents, hspread.stands, fun token hmem n hn hlt => ?_⟩
  refine (hspread.taken_iff token hmem n hn (Nat.zero_le n) hlt).2 ?_
  rintro ⟨i, extent, -, htears, -⟩
  -- the number goes over into the second variable, and only a constraint tears
  rcases i with - | _ | _ | i
  · cases htears
  · cases htears
  · cases htears
  · have hend : numberAndRest.blocks.drop (i + 3) = [] :=
      List.drop_eq_nil_of_le (Nat.le_add_left 3 i)
    rw [hend] at htears
    cases htears

/-- The rest of a token in which a number ends is in the match, and no block takes it. -/
theorem search_drops_rest_of_mixed_token :
    (Pattern.compile numberBeforeWord.source).toOption = some numberBeforeWord ∧
    (search mixedToken (tokens mixedToken) numberBeforeWord 0).toOption =
      some (some ⟨0, 6, 0, [("n".toList, "12".toList)]⟩) ∧
    (∃ token ∈ tokens mixedToken, token.text = "12ab".toList ∧ token.Holds 2) ∧
    ∀ extents, List.Forall₂ (Stands mixedToken [("n".toList, "12".toList)])
        numberBeforeWord.blocks extents →
      ∀ extent ∈ extents, extent.contains 2 = false := by
  refine ⟨by decide +kernel, by decide +kernel,
    ⟨⟨0, 4, "12ab".toList, false⟩, by decide +kernel, rfl, by decide, by decide⟩, ?_⟩
  intro extents hstands
  obtain ⟨number, words, hnumber, hwords, rfl⟩ := List.forall₂_cons_left_iff.1 hstands
  obtain ⟨word, rest, hword, hrest, rfl⟩ := List.forall₂_cons_left_iff.1 hwords
  cases hrest
  obtain ⟨value, hvalue, hslice⟩ := hnumber
  obtain rfl : "12".toList = value := Option.some.inj hvalue
  obtain ⟨token, htoken, his, rfl⟩ := hword
  refine List.forall_mem_cons.2 ⟨?_, List.forall_mem_singleton.2 ?_⟩
  · -- there is one digit `1` in the text, so the number is at its start
    obtain ⟨a, b, htext, hstart, hstop⟩ := Text.slice?_eq_some_iff.1 hslice
    cases a with
    | nil =>
      have hstop : 2 = number.stop := hstop
      simp [Extent.contains, ← hstop]
    | cons c a =>
      have htail : ['2', 'a', 'b', ' ', 'x'] = a ++ (['1', '2'] ++ b) := (List.cons.inj htext).2
      have hone : '1' ∈ ['2', 'a', 'b', ' ', 'x'] := by
        rw [htail]
        simp
      exact absurd hone (by decide)
  · have hbehind : ∀ token ∈ tokens mixedToken, token.is "x".toList = true →
        Extent.contains ⟨token.start, token.stop⟩ 2 = false := by
      decide +kernel
    exact hbehind token htoken his

end Search

end SqlScript
