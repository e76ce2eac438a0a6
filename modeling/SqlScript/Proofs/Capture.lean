import SqlScript.Proofs.Cutting
import SqlScript.Pattern.Search

/-!
# What a variable captures

A run of tokens is closed if every parenthesis and every quoted literal opened in it is closed in it
(`Search.Closed`), a notion of its own that knows no stack. A variable before a literal captures a
closed run up to the first token equal to the literal that a closed run precedes, and no such run
before it is followed by `;` or `)` (`Captured`). `boundary?_eq_some_iff` says that the search for
the end of a capture finds exactly that : the stack of what is open, as it is kept there, is empty
just when the run is closed (`Closed.opens`, `closed_of_opens`).
-/

namespace SqlScript

open List Text

variable {mark : Char} {run : List Token}

/-- Up to case a token is a character that is no letter just if it is that character. -/
theorem Token.is_singleton_iff {c : Char} (hlower : c.isLower = false) (hsmall : c.toLower = c)
    {token : Token} : token.is [c] ↔ token.text = [c] := by
  simp only [Token.is, eqFolded, beq_iff_eq, toLowerAscii, map_singleton, hsmall,
    map_eq_singleton_iff]
  constructor
  · rintro ⟨d, htext, hd⟩
    rw [htext, eq_of_toLower_eq hlower hd]
  · intro htext
    exact ⟨c, htext, hsmall⟩

namespace Search

/-- Every parenthesis and quoted literal that is opened in the run is closed in it. -/
inductive Closed : List Token → Prop where
  | nil : Closed []
  | plain {token : Token} {later : List Token} : token.isQuote = false → token.text ≠ ['('] →
    token.text ≠ [')'] → Closed later → Closed (token :: later)
  | quoted {opening closing : Token} {inside later : List Token} : opening.isQuote = true →
    (∀ token ∈ inside, token.text ≠ opening.text) → closing.text = opening.text → Closed later →
    Closed (opening :: (inside ++ closing :: later))
  | group {opening closing : Token} {inside later : List Token} : opening.text = ['('] →
    closing.text = [')'] → Closed inside → Closed later →
    Closed (opening :: (inside ++ closing :: later))

/-- The run `segment` is what a variable before the literal captures when `boundary` follows. -/
structure Captured (literal : Text) (segment : List Token) (boundary : Token) : Prop where
  closed : Closed segment
  stops : boundary.is literal = true
  first : ∀ before token after, segment = before ++ token :: after → Closed before →
    token.is literal = false ∧ token.text ≠ [';'] ∧ token.text ≠ [')']

/-! ## The stack of what is open -/

/-- What is open after the run. -/
def opens (opened : List Char) (run : List Token) : List Char :=
  run.foldl (openAfter false) opened

theorem opens_nil (opened : List Char) : opens opened [] = opened :=
  rfl

theorem opens_cons (opened : List Char) (token : Token) (run : List Token) :
    opens opened (token :: run) = opens (openAfter false opened token) run :=
  rfl

theorem opens_append (opened : List Char) (run run' : List Token) :
    opens opened (run ++ run') = opens (opens opened run) run' :=
  foldl_append

/-- No quoted literal is open. -/
def Free (opened : List Char) : Prop :=
  opened.head?.any isQuoteMark = false

theorem free_nil : Free [] :=
  rfl

theorem free_paren (opened : List Char) : Free ('(' :: opened) :=
  rfl

theorem exists_mark_of_isQuote {token : Token} (h : token.isQuote) :
    ∃ mark, token.text = [mark] ∧ isQuoteMark mark := by
  simp only [Token.isQuote, Bool.or_eq_true, beq_iff_eq] at h
  rcases h with h | h
  · exact ⟨'\'', h, by decide⟩
  · exact ⟨'"', h, by decide⟩

variable {opened : List Char} {token : Token}

theorem openAfter_plain (hfree : Free opened) (hquote : token.isQuote = false)
    (hopening : token.text ≠ ['(']) (hclosing : token.text ≠ [')']) :
    openAfter false opened token = opened := by
  simp [openAfter, show opened.head?.any isQuoteMark = false from hfree, hquote, hopening, hclosing]

theorem openAfter_quote (hfree : Free opened) (hquote : token.isQuote)
    (htext : token.text = [mark]) : openAfter false opened token = mark :: opened := by
  simp [openAfter, show opened.head?.any isQuoteMark = false from hfree, hquote, htext]

theorem openAfter_opening (hfree : Free opened) (htext : token.text = ['(']) :
    openAfter false opened token = '(' :: opened := by
  simp [openAfter, show opened.head?.any isQuoteMark = false from hfree, Token.isQuote, htext]

theorem openAfter_closing (htext : token.text = [')']) :
    openAfter false ('(' :: opened) token = opened := by
  have hparen : isQuoteMark '(' = false := by decide
  simp [openAfter, hparen, Token.isQuote, htext]

theorem openAfter_inside (hmark : isQuoteMark mark) :
    openAfter false (mark :: opened) token =
      if token.text = [mark] then opened else mark :: opened := by
  simp [openAfter, hmark]

/-! ## Closed runs leave nothing open -/

/-- A literal stays open until its mark comes. -/
theorem opens_inside (hmark : isQuoteMark mark) {inside : List Token}
    (h : ∀ token ∈ inside, token.text ≠ [mark]) :
    opens (mark :: opened) inside = mark :: opened := by
  induction inside with
  | nil => rfl
  | cons token inside ih =>
    rw [opens_cons, openAfter_inside hmark, if_neg (h token mem_cons_self)]
    exact ih fun other hmem => h other (mem_cons_of_mem _ hmem)

theorem Closed.opens (h : Closed run) {opened : List Char}
    (hfree : Free opened) : opens opened run = opened := by
  induction h generalizing opened with
  | nil => rfl
  | plain hquote hopening hclosing _ ih =>
    rw [opens_cons, openAfter_plain hfree hquote hopening hclosing, ih hfree]
  | quoted hquote hinside hclosing _ ih =>
    obtain ⟨mark, htext, hmark⟩ := exists_mark_of_isQuote hquote
    rw [htext] at hinside hclosing
    rw [opens_cons, openAfter_quote hfree hquote htext, opens_append, opens_inside hmark hinside,
      opens_cons, openAfter_inside hmark, if_pos hclosing, ih hfree]
  | group hopening hclosing _ _ ihi ihl =>
    rw [opens_cons, openAfter_opening hfree hopening, opens_append, ihi (free_paren opened),
      opens_cons, openAfter_closing hclosing, ihl hfree]

/-! ## Runs that leave nothing open are closed -/

/-- A literal that does not stay open is closed by the first of its marks. -/
theorem exists_closing_of_quote (hmark : isQuoteMark mark)
    (h : opens (mark :: opened) run = []) : ∃ inside closing later,
      run = inside ++ closing :: later ∧ (∀ token ∈ inside, token.text ≠ [mark]) ∧
      closing.text = [mark] ∧ opens opened later = [] := by
  induction run with
  | nil => simp [opens_nil] at h
  | cons token run ih =>
    rw [opens_cons, openAfter_inside hmark] at h
    by_cases htext : token.text = [mark]
    · rw [if_pos htext] at h
      exact ⟨[], token, run, rfl, by simp, htext, h⟩
    · rw [if_neg htext] at h
      obtain ⟨inside, closing, later, rfl, hinside, hclosing, hlater⟩ := ih h
      exact ⟨token :: inside, closing, later, rfl, forall_mem_cons.2 ⟨htext, hinside⟩,
        hclosing, hlater⟩

/-- A run that leaves nothing open and does not start with `)` starts with a token, a literal or a
group that can be put before any closed run. -/
theorem exists_unit (hfree : Free opened) (hclosing : token.text ≠ [')'])
    (h : opens opened (token :: run) = [])
    (hparen : opens ('(' :: opened) run = [] → ∃ inside closing later,
      run = inside ++ closing :: later ∧ Closed inside ∧ closing.text = [')'] ∧
      opens opened later = []) :
    ∃ unit later, token :: run = unit ++ later ∧ later.length < (token :: run).length ∧
      (∀ other, Closed other → Closed (unit ++ other)) ∧ opens opened later = [] := by
  rw [opens_cons] at h
  cases hquote : token.isQuote with
  | true =>
    obtain ⟨mark, htext, hmark⟩ := exists_mark_of_isQuote hquote
    rw [openAfter_quote hfree hquote htext] at h
    obtain ⟨inside, closing, later, rfl, hinside, hend, hlater⟩ := exists_closing_of_quote hmark h
    rw [← htext] at hinside hend
    refine ⟨token :: (inside ++ [closing]), later, by simp, by simp; omega,
      fun other hother => ?_, hlater⟩
    simpa using Closed.quoted hquote hinside hend hother
  | false =>
    by_cases hopening : token.text = ['(']
    · rw [openAfter_opening hfree hopening] at h
      obtain ⟨inside, closing, later, rfl, hinside, hend, hlater⟩ := hparen h
      refine ⟨token :: (inside ++ [closing]), later, by simp, by simp; omega,
        fun other hother => ?_, hlater⟩
      simpa using Closed.group hopening hend hinside hother
    · rw [openAfter_plain hfree hquote hopening hclosing] at h
      exact ⟨[token], run, rfl, by simp, fun other => .plain hquote hopening hclosing, h⟩

/-- A parenthesis that does not stay open is closed after a closed run. -/
theorem exists_closing_of_paren (h : opens ('(' :: opened) run = []) :
    ∃ inside closing later, run = inside ++ closing :: later ∧ Closed inside ∧
      closing.text = [')'] ∧ opens opened later = [] := by
  induction hlength : run.length using Nat.strongRecOn generalizing run opened with
  | ind n ih =>
    subst hlength
    cases run with
    | nil => simp [opens_nil] at h
    | cons token run =>
      by_cases hclosing : token.text = [')']
      · rw [opens_cons, openAfter_closing hclosing] at h
        exact ⟨[], token, run, rfl, .nil, hclosing, h⟩
      · obtain ⟨unit, later, hsplit, hshort, hunit, hlater⟩ := exists_unit (free_paren opened)
          hclosing h fun hrun => ih run.length (by simp) hrun rfl
        obtain ⟨inside, closing, later', rfl, hinside, hend, hlater'⟩ := ih _ hshort hlater rfl
        exact ⟨unit ++ inside, closing, later', by rw [hsplit, append_assoc],
          hunit inside hinside, hend, hlater'⟩

/-- A run that leaves nothing open is closed, if no `)` in it follows a closed run. -/
theorem closed_of_opens (h : opens [] run = [])
    (hparen : ∀ before token after, run = before ++ token :: after → Closed before →
      token.text ≠ [')']) : Closed run := by
  induction hlength : run.length using Nat.strongRecOn generalizing run with
  | ind n ih =>
    subst hlength
    cases run with
    | nil => exact .nil
    | cons token run =>
      obtain ⟨unit, later, hsplit, hshort, hunit, hlater⟩ := exists_unit free_nil
        (hparen [] token run rfl .nil) h exists_closing_of_paren
      rw [hsplit]
      refine hunit later (ih _ hshort hlater ?_ rfl)
      rintro before other after rfl hbefore
      exact hparen (unit ++ before) other after (by rw [hsplit, append_assoc])
        (hunit before hbefore)

/-! ## The end of a capture -/

/-- `Captured` in terms of the stack : what is open at the start is closed in the segment too. -/
structure Reaches (literal : Text) (opened : List Char) (segment : List Token) (boundary : Token) :
    Prop where
  closed : opens opened segment = []
  stops : boundary.is literal = true
  first : ∀ before token after, segment = before ++ token :: after → opens opened before = [] →
    token.is literal = false ∧ token.text ≠ [';'] ∧ token.text ≠ [')']

variable {literal : Text} {boundary : Token}

theorem reaches_nil : Reaches literal opened [] boundary ↔ opened = [] ∧ boundary.is literal :=
  ⟨fun h => ⟨h.closed, h.stops⟩, fun h => ⟨h.1, h.2, by simp⟩⟩

variable {segment tokens later : List Token}

theorem reaches_cons : Reaches literal opened (token :: segment) boundary ↔
    (opened = [] → token.is literal = false ∧ token.text ≠ [';'] ∧ token.text ≠ [')']) ∧
      Reaches literal (openAfter false opened token) segment boundary := by
  constructor
  · rintro ⟨hclosed, hstops, hfirst⟩
    refine ⟨hfirst [] token segment rfl, hclosed, hstops, ?_⟩
    rintro before other after rfl hopens
    exact hfirst (token :: before) other after rfl hopens
  · rintro ⟨htoken, hclosed, hstops, hfirst⟩
    refine ⟨hclosed, hstops, fun before other after hsplit hopens => ?_⟩
    rcases cons_eq_append_iff.1 hsplit with ⟨rfl, hhead⟩ | ⟨before, rfl, htail⟩
    · cases hhead
      exact htoken hopens
    · exact hfirst before other after htail hopens

theorem reaches_nil_iff :
    Reaches literal [] segment boundary ↔ Captured literal segment boundary := by
  constructor
  · rintro ⟨hopens, hstops, hfirst⟩
    refine ⟨closed_of_opens hopens ?_, hstops, ?_⟩
    · intro before token after hsplit hbefore
      exact (hfirst before token after hsplit (hbefore.opens free_nil)).2.2
    · intro before token after hsplit hbefore
      exact hfirst before token after hsplit (hbefore.opens free_nil)
  · rintro ⟨hclosed, hstops, hfirst⟩
    refine ⟨hclosed.opens free_nil, hstops, ?_⟩
    rintro before token after rfl hopens
    refine hfirst before token after rfl (closed_of_opens hopens ?_)
    rintro before' token' after' rfl hbefore'
    exact (hfirst before' token' (after' ++ token :: after) (by simp) hbefore').2.2

/-- One step of the search for the end of a capture. -/
theorem boundary?_cons_eq_some_iff :
    boundary? false literal opened (token :: tokens) = some (boundary, later) ↔
      (opened = [] ∧ token.is literal ∧ token = boundary ∧ tokens = later) ∨
      ((opened = [] → token.is literal = false ∧ token.text ≠ [';'] ∧ token.text ≠ [')']) ∧
        boundary? false literal (openAfter false opened token) tokens =
          some (boundary, later)) := by
  cases opened with
  | nil =>
    cases hliteral : token.is literal with
    | true => simp [boundary?, hliteral]
    | false =>
      by_cases hstop : token.text = [';'] ∨ token.text = [')']
      · rcases hstop with hstop | hstop <;> simp [boundary?, hliteral, hstop]
      · rw [not_or] at hstop
        simp [boundary?, hliteral, hstop]
  | cons mark opened => simp [boundary?]

theorem boundary?_eq_some_iff_reaches :
    boundary? false literal opened tokens = some (boundary, later) ↔ ∃ segment,
      tokens = segment ++ boundary :: later ∧ Reaches literal opened segment boundary := by
  induction tokens generalizing opened with
  | nil => simp [boundary?]
  | cons token tokens ih =>
    rw [boundary?_cons_eq_some_iff, ih]
    constructor
    · rintro (⟨hopened, hliteral, rfl, rfl⟩ | ⟨htoken, segment, rfl, hreaches⟩)
      · exact ⟨[], rfl, reaches_nil.2 ⟨hopened, hliteral⟩⟩
      · exact ⟨token :: segment, rfl, reaches_cons.2 ⟨htoken, hreaches⟩⟩
    · rintro ⟨segment, hsplit, hreaches⟩
      cases segment with
      | nil =>
        cases hsplit
        obtain ⟨hopened, hliteral⟩ := reaches_nil.1 hreaches
        exact .inl ⟨hopened, hliteral, rfl, rfl⟩
      | cons other segment =>
        cases hsplit
        obtain ⟨htoken, hreaches⟩ := reaches_cons.1 hreaches
        exact .inr ⟨htoken, segment, rfl, hreaches⟩

/-- The search for the end of a capture finds what the variable captures. -/
theorem boundary?_eq_some_iff :
    boundary? false literal [] tokens = some (boundary, later) ↔
      ∃ segment, tokens = segment ++ boundary :: later ∧ Captured literal segment boundary := by
  simp only [boundary?_eq_some_iff_reaches, reaches_nil_iff]

/-- A variable can capture in one way only. -/
theorem Captured.unique {segment' later' : List Token} {boundary' : Token}
    (h : Captured literal segment boundary) (h' : Captured literal segment' boundary')
    (htokens : segment ++ boundary :: later = segment' ++ boundary' :: later') :
    boundary = boundary' ∧ later = later' := by
  have hfound : boundary? false literal [] (segment ++ boundary :: later) =
      some (boundary, later) := boundary?_eq_some_iff.2 ⟨segment, rfl, h⟩
  rw [boundary?_eq_some_iff.2 ⟨segment', htokens, h'⟩, Option.some.injEq, Prod.mk.injEq] at hfound
  exact ⟨hfound.1.symm, hfound.2.symm⟩

end Search

end SqlScript
