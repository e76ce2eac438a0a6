import Mathlib.Data.List.Forall2
import SqlScript.Proofs.Scanning
import SqlScript.Span
import SqlScript.Statement

/-!
# A script as runs of tokens

The tokens of a script fall into runs, each of which ends with the first token that ends a statement
(`Statement.Divided`) : on the way from the start of a run to its end no token does
(`Nesting.Passes`). Any list of tokens is divided so, and the statements that are collected from it
cover the runs one by one, but for those that are nothing but a `;` (`Statement.Divided.covers`).

A statement is cut from the start of the first token of its run to the end of the last one
(`Statement.Cut`). So statements do not overlap, and a token lies in the statement of its own run
only (`Statement.eq_of_within`). Where a statement loses its terminator, only the blanks before that
go with it, since no token ends with a blank (`Statement.exists_shortened`). The main statement is
`Statement.split_keeps_tokens`.
-/

namespace SqlScript

open List Option Text Token

variable {next : Option Token} {terminator : Token}

/-- A single character is no keyword. -/
theorem Text.eqFolded_singleton (c : Char) {keyword : Text} (h : keyword.length ≠ 1) :
    eqFolded [c] keyword = false := by
  unfold eqFolded
  refine beq_eq_false_iff_ne.2 fun heq => h ?_
  simpa [toLowerAscii] using congrArg length heq.symm

namespace Nesting

/-- Neither a literal nor a bracketed identifier is open. -/
structure Plain (nesting : Nesting) : Prop where
  inBracket : nesting.inBracket = false
  quote : nesting.quote = none

variable {nesting : Nesting} {token : Token}

theorem Plain.eq (h : nesting.Plain) :
    nesting = { blocks := nesting.blocks, lastClosed := nesting.lastClosed } := by
  obtain ⟨blocks, lastClosed, quote, inBracket⟩ := nesting
  obtain ⟨rfl, rfl⟩ := h
  rfl

/-- Nothing is open. -/
structure Clear (nesting : Nesting) : Prop extends Plain nesting where
  blocks : nesting.blocks = []

theorem clear_default : Clear {} :=
  ⟨⟨rfl, rfl⟩, rfl⟩

theorem isEnd_iff : nesting.isEnd token ↔ nesting.Clear ∧ token.text = [';'] := by
  constructor
  · intro h
    simp only [isEnd, Bool.and_eq_true, Bool.not_eq_true', isNone_iff_eq_none,
      List.isEmpty_iff, beq_iff_eq] at h
    obtain ⟨⟨⟨hbracket, hquote⟩, hblocks⟩, htext⟩ := h
    exact ⟨⟨⟨hbracket, hquote⟩, hblocks⟩, htext⟩
  · rintro ⟨⟨⟨hbracket, hquote⟩, hblocks⟩, htext⟩
    simp [isEnd, hbracket, hquote, hblocks, htext]

/-- The token opens and closes nothing, when `next` follows it : it is no quote mark, opening
bracket, `BEGIN` or `CASE`, nor an `END` without `IF`. -/
structure Inert (token : Token) (next : Option Token) : Prop where
  quote : token.isQuote = false
  bracket : token.text ≠ ['[']
  compound : token.is "begin".toList = false
  choice : token.is "case".toList = false
  close : token.is "end".toList = true → next.any (·.is "if".toList) = true

theorem after_inert (h : nesting.Plain)
    (hinert : Inert token next) : nesting.after token next = nesting := by
  have hclose : (token.is "end".toList && !next.any (·.is "if".toList)) = false := by
    cases hend : token.is "end".toList with
    | false => rfl
    | true => rw [hinert.close hend]; rfl
  unfold after
  rw [if_neg (by simp [h.inBracket]), h.quote]
  simp only [hinert.quote, beq_eq_false_iff_ne.2 hinert.bracket, hinert.compound, hinert.choice,
    hclose, Bool.false_eq_true, if_false]

/-- A symbol that is no quote mark or opening bracket opens and closes nothing. -/
theorem inert_symbol {token : Token} {c : Char} (htext : token.text = [c])
    (hquote : isQuoteMark c = false) (hbracket : c ≠ '[') : Inert token next := by
  have hkeyword : ∀ keyword : Text, keyword.length ≠ 1 → token.is keyword = false := by
    intro keyword hlength
    rw [is, htext]
    exact eqFolded_singleton c hlength
  refine ⟨?_, by simpa [htext] using hbracket, hkeyword _ (by decide), hkeyword _ (by decide), ?_⟩
  · simpa [isQuote, htext, isQuoteMark] using hquote
  · rw [hkeyword "end".toList (by decide)]
    simp

theorem inert_semicolon (h : token.text = [';']) : Inert token next :=
  inert_symbol h (by decide) (by decide)

/-- The end of a statement opens and closes nothing. -/
theorem after_of_isEnd (h : nesting.isEnd token)
    (next : Option Token) : nesting.after token next = nesting := by
  obtain ⟨hclear, htext⟩ := isEnd_iff.1 h
  exact after_inert hclear.toPlain (inert_semicolon htext)

/-- Reading the run, when `next` follows it, leads from one nesting to the other, and no token of
the run ends a statement. -/
inductive Passes : Nesting → List Token → Option Token → Nesting → Prop where
  | nil {nesting : Nesting} {next : Option Token} : Passes nesting [] next nesting
  | cons {nesting nesting' : Nesting} {token : Token} {run : List Token} {next : Option Token} :
    nesting.isEnd token = false →
    Passes (nesting.after token (run.head?.or next)) run next nesting' →
    Passes nesting (token :: run) next nesting'

theorem Passes.append {a b c : Nesting} {run run' : List Token}
    (h : Passes a run (run'.head?.or next) b) (h' : Passes b run' next c) :
    Passes a (run ++ run') next c := by
  generalize hnext : run'.head?.or next = middle at h
  induction h with
  | nil => exact h'
  | @cons _ _ token run _ hend _ ih =>
    rw [cons_append]
    refine .cons hend ?_
    rw [head?_append, Option.or_assoc, hnext]
    exact ih h' hnext

end Nesting

open Nesting (Passes)

namespace Statement

/-! ## Statements as runs of tokens -/

/-- The tokens fall into runs : each one but the last runs through the first token that ends a
statement, and in the last one there may be no such token. -/
inductive Divided : Nesting → List Token → List (List Token) → Prop where
  | nil {nesting : Nesting} : Divided nesting [] []
  | last {nesting nesting' : Nesting} {run : List Token} : run ≠ [] →
    Passes nesting run none nesting' → Divided nesting run [run]
  | cons {nesting nesting' : Nesting} {body later : List Token} {terminator : Token}
    {runs : List (List Token)} : Passes nesting body (some terminator) nesting' →
    nesting'.isEnd terminator = true → Divided nesting' later runs →
    Divided nesting (body ++ terminator :: later) ((body ++ [terminator]) :: runs)

theorem exists_divided (nesting : Nesting) (tokens : List Token) :
    ∃ runs, Divided nesting tokens runs := by
  induction tokens generalizing nesting with
  | nil => exact ⟨[], .nil⟩
  | cons token later ih =>
    cases hend : nesting.isEnd token with
    | true =>
      obtain ⟨runs, hruns⟩ := ih nesting
      exact ⟨[token] :: runs, .cons .nil hend hruns⟩
    | false =>
      -- the token joins the first run of what follows it
      obtain ⟨runs, hruns⟩ := ih (nesting.after token later.head?)
      cases hruns with
      | nil => exact ⟨[[token]], .last (by simp) (.cons hend .nil)⟩
      | last hne hpasses =>
        rw [← or_none (o := later.head?)] at hpasses
        exact ⟨[token :: later], .last (by simp) (.cons hend hpasses)⟩
      | @cons _ _ body later terminator runs hpasses hend' hruns =>
        refine ⟨(token :: body ++ [terminator]) :: runs, .cons (.cons hend ?_) hend' hruns⟩
        rwa [head?_append] at hpasses

variable {nesting nesting' : Nesting} {tokens run : List Token}

theorem Divided.flatten_eq {runs : List (List Token)}
    (h : Divided nesting tokens runs) : runs.flatten = tokens := by
  induction h with
  | nil => rfl
  | last => simp
  | cons _ _ _ ih => simp [ih]

theorem Divided.ne_nil {runs : List (List Token)}
    (h : Divided nesting tokens runs) : ∀ run ∈ runs, run ≠ [] := by
  induction h with
  | nil => simp
  | last hne => simpa using hne
  | cons _ _ _ ih => exact forall_mem_cons.2 ⟨by simp, ih⟩

/-- Whether the run is nothing but a `;`. -/
def isLone (run : List Token) : Bool :=
  run.map Token.text == [[';']]

theorem isLone_iff : isLone run ↔ ∃ token, run = [token] ∧ token.text = [';'] := by
  rw [isLone, beq_iff_eq, map_eq_singleton_iff]

/-- The statement lies from the first to the last token of the run. If it has a terminator, that is
the last token, and others stand before it. -/
structure Covers (run : List Token) (statement : Statement) : Prop where
  start : run.head?.map Token.start = some statement.start
  stop : run.getLast?.map Token.stop = some statement.stop
  terminator : ∀ offset, statement.terminator = some offset → ∃ body terminator,
    run = body ++ [terminator] ∧ body ≠ [] ∧ terminator.text = [';'] ∧ terminator.start = offset

/-- Tokens that end no statement are passed over. -/
theorem collect_append {later : List Token} (h : Passes nesting run later.head? nesting')
    (first : Nat) (previous : Option Token) :
    collect nesting (some first) previous (run ++ later) =
      collect nesting' (some first) (run.getLast?.or previous) later := by
  generalize hnext : later.head? = next at h
  induction h generalizing previous with
  | nil => rfl
  | @cons nesting nesting' token run next hend _ ih =>
    have hlast : (token :: run).getLast?.or previous = run.getLast?.or (some token) := by
      rw [getLast?_cons]
      cases run.getLast? <;> rfl
    rw [cons_append, collect, head?_append, hnext, hend, hlast]
    exact ih (some token) hnext

/-- A statement starts at its first token. -/
theorem collect_cons_append {first : Token} {rest later : List Token}
    (h : Passes nesting (first :: rest) later.head? nesting') (previous : Option Token) :
    collect nesting none previous (first :: rest ++ later) =
      collect nesting' (some first.start) (some (rest.getLast?.getD first)) later := by
  have hstart : collect nesting none previous (first :: rest ++ later) =
      collect nesting (some first.start) previous (first :: rest ++ later) := by
    rw [cons_append, collect, collect]
    rfl
  rw [hstart, collect_append h, getLast?_cons, some_or]

/-- A statement from `first` on ends at a terminator after `first`. -/
theorem exists_collect_of_isEnd {first : Nat}
    (hend : nesting.isEnd terminator) (hlt : first < terminator.start)
    (previous : Option Token) (later : List Token) : ∃ endsBlock,
      collect nesting (some first) previous (terminator :: later) =
        ⟨first, terminator.stop, some terminator.start, endsBlock⟩ ::
          collect nesting none (some terminator) later := by
  rw [collect, Nesting.after_of_isEnd hend, if_pos hend, getD_some, if_pos hlt]
  exact ⟨_, rfl⟩

/-- A terminator that comes first makes no statement. -/
theorem collect_of_isEnd (hend : nesting.isEnd terminator)
    (previous : Option Token) (later : List Token) :
    collect nesting none previous (terminator :: later) =
      collect nesting none (some terminator) later := by
  rw [collect, Nesting.after_of_isEnd hend, if_pos hend, getD_none, if_neg (Nat.lt_irrefl _)]

theorem isLone_eq_false_of_passes (hclear : nesting.Clear)
    (h : Passes nesting run next nesting') : isLone run = false := by
  rw [Bool.eq_false_iff]
  intro hlone
  obtain ⟨token, rfl, htext⟩ := isLone_iff.1 hlone
  cases h with
  | cons hend _ => simp [Nesting.isEnd_iff.2 ⟨hclear, htext⟩] at hend

/-- The statements are the runs that are more than a `;`. -/
theorem Divided.covers {sql : Text} {runs : List (List Token)} (h : Divided nesting tokens runs)
    (hclear : nesting.Clear) (hlaid : Laid sql tokens) (previous : Option Token) :
    List.Forall₂ Covers (runs.filter fun run => !isLone run)
      (collect nesting none previous tokens) := by
  induction h generalizing previous with
  | nil => exact .nil
  | @last nesting nesting' run hne hpasses =>
    have hlone := isLone_eq_false_of_passes hclear hpasses
    rw [filter_cons_of_pos (by simp [hlone]), filter_nil]
    obtain ⟨first, rest, rfl⟩ := exists_cons_of_ne_nil hne
    have hcollect : collect nesting none previous (first :: rest) =
        [⟨first.start, (rest.getLast?.getD first).stop, none, false⟩] := by
      rw [← append_nil (first :: rest), collect_cons_append hpasses]
      rfl
    rw [hcollect]
    exact .cons ⟨rfl, by rw [getLast?_cons]; rfl, by simp⟩ .nil
  | @cons nesting nesting' body later terminator runs hpasses hend _ ih =>
    have hlater := ih (Nesting.isEnd_iff.1 hend).1
      (hlaid.sublist ((sublist_cons_self _ _).trans (sublist_append_right body _)))
      (some terminator)
    obtain ⟨-, htext⟩ := Nesting.isEnd_iff.1 hend
    cases body with
    | nil =>
      cases hpasses
      rw [nil_append, filter_cons_of_neg (by simp [isLone, htext]), nil_append,
        collect_of_isEnd hend]
      exact hlater
    | cons first rest =>
      have hlt : first.start < terminator.start := by
        have hordered := (pairwise_cons.1 hlaid.ordered).1 terminator (by simp)
        have hfirst : first.start < first.stop := hlaid.start_lt_stop (by simp)
        omega
      obtain ⟨endsBlock, hcollect⟩ := exists_collect_of_isEnd hend hlt
        (some (rest.getLast?.getD first)) later
      rw [filter_cons_of_pos (by simp [isLone]), collect_cons_append hpasses, hcollect]
      refine .cons ⟨rfl, by rw [getLast?_concat]; rfl, ?_⟩ hlater
      rintro offset ⟨⟩
      exact ⟨first :: rest, terminator, rfl, by simp, htext, rfl⟩

/-! ## Extents of runs -/

/-- The extent from the first to the last token of a run. -/
def extentOf (run : List Token) : Extent :=
  ⟨(run.head?.map Token.start).getD 0, (run.getLast?.map Token.stop).getD 0⟩

end Statement

/-- The token lies in the extent. -/
def Token.Within (token : Token) (extent : Extent) : Prop :=
  extent.start ≤ token.start ∧ token.stop ≤ extent.stop

namespace Statement

variable {sql : Text} {runs : List (List Token)} {run run' : List Token} {token : Token}

theorem within_extentOf (hlaid : Laid sql run) (hmem : token ∈ run) :
    token.Within (extentOf run) := by
  obtain ⟨first, rest, rfl⟩ := exists_cons_of_ne_nil (ne_nil_of_mem hmem)
  have hfilter : ([] ++ (first :: rest ++ [])).filter
      (fun token => first.start ≤ token.start && token.stop ≤ (rest.getLast?.getD first).stop) =
      first :: rest :=
    Laid.filter_within (by simpa using hlaid) rfl getLast?_cons
  rw [nil_append, append_nil] at hfilter
  have hin := filter_eq_self.1 hfilter token hmem
  simp only [Bool.and_eq_true, decide_eq_true_eq] at hin
  simpa [Within, extentOf, getLast?_cons] using hin

/-- A token lies in the extent of its own run only. -/
theorem eq_of_within (hlaid : Laid sql runs.flatten) (hrun : run ∈ runs) (hrun' : run' ∈ runs)
    (hne : run' ≠ []) (hmem : token ∈ run) (hin : token.Within (extentOf run')) : run' = run := by
  have hcross := (pairwise_flatten.1 hlaid.ordered).2
  have htoken := hlaid.start_lt_stop (mem_flatten.2 ⟨run, hrun, hmem⟩)
  have hapart : run = run' ∨ (∀ x ∈ run, ∀ y ∈ run', x.stop ≤ y.start) ∨
      ∀ x ∈ run', ∀ y ∈ run, x.stop ≤ y.start :=
    Pairwise.forall_of_forall_of_flip
      (R := fun a b => a = b ∨ (∀ x ∈ a, ∀ y ∈ b, x.stop ≤ y.start) ∨
        ∀ x ∈ b, ∀ y ∈ a, x.stop ≤ y.start)
      (fun _ _ => .inl rfl) (hcross.imp fun h => .inr (.inl h))
      (hcross.imp fun h => .inr (.inr h)) hrun hrun'
  obtain ⟨first, rest, rfl⟩ := exists_cons_of_ne_nil hne
  simp only [Within, extentOf, head?_cons, getLast?_cons, map_some, getD_some] at hin
  rcases hapart with heq | hbefore | hafter
  · exact heq.symm
  · have hstop := hbefore token hmem first mem_cons_self
    omega
  · have hlast : rest.getLast?.getD first ∈ first :: rest :=
      mem_of_getLast? getLast?_cons
    have hstop := hafter _ hlast token hmem
    omega

/-! ## The statements as they are cut -/

/-- A statement as it is cut from the script : where it stands, its text with the terminator, and
its text when only blocks keep theirs. -/
structure Cut where
  extent : Extent
  whole : Text
  short : Text

/-- The text `short` is `whole` without the `;` at its end and the blanks before that, and all the
other tokens that lie in the extent lie in what is left. -/
structure Shortened (sql : Text) (extent : Extent) (whole short : Text) : Prop where
  text : ∃ gap, gap.Blank ∧ whole = short ++ (gap ++ [';'])
  solid : ∃ rest c, short = rest ++ [c] ∧ isBlank c = false
  tokens : ∀ token ∈ tokens sql, token.Within extent → token.stop ≠ extent.stop →
    token.stop ≤ extent.start + short.byteSize

/-- The statement is a stretch of the script from the start of a token to the end of one. -/
structure Cut.Sound (sql : Text) (cut : Cut) : Prop where
  slice : sql.slice? cut.extent.start cut.extent.stop = some cut.whole
  nonempty : cut.extent.start < cut.extent.stop
  first : ∃ token ∈ tokens sql, token.start = cut.extent.start
  last : ∃ token ∈ tokens sql, token.stop = cut.extent.stop
  short : cut.short = cut.whole ∨ Shortened sql cut.extent cut.whole cut.short

/-- Trimming a slice at the end leaves the tokens in it whole. -/
theorem exists_trimEnd_of_within {front : Text} {start stop : Nat}
    (hfront : sql.slice? start stop = some front)
    (htoken : sql.slice? token.start token.stop = some token.text) (hsolid : token.text.Solid)
    (hstart : start ≤ token.start) (hstop : token.stop ≤ stop) :
    ∃ p q, front.trimEnd = p ++ (token.text ++ q) ∧ start + p.byteSize = token.start := by
  obtain ⟨p, q, rfl, hp⟩ := exists_append_of_slice?_within hfront htoken hstart hstop
  obtain ⟨rest, c, hrest, hc⟩ := hsolid.last
  refine ⟨p, trimEnd q, ?_, hp⟩
  rw [hrest]
  simpa using trimEnd_append_cons (p ++ rest) hc q

/-- Taking the terminator off a run leaves the other tokens whole. -/
theorem exists_shortened {body : List Token}
    (hlaid : Laid sql (body ++ [terminator])) (hbody : body ≠ []) (htext : terminator.text = [';'])
    (hsolid : ∀ token ∈ body, token.text.Solid)
    (hin : ∀ token ∈ tokens sql, token.Within (extentOf (body ++ [terminator])) →
      token ∈ body ++ [terminator]) : ∃ front,
      sql.slice? (extentOf (body ++ [terminator])).start terminator.start = some front ∧
      sql.slice? (extentOf (body ++ [terminator])).start
        (extentOf (body ++ [terminator])).stop = some (front ++ [';']) ∧
      Shortened sql (extentOf (body ++ [terminator])) (front ++ [';']) front.trimEnd := by
  obtain ⟨first, rest, rfl⟩ := exists_cons_of_ne_nil hbody
  have hextent : extentOf (first :: rest ++ [terminator]) = ⟨first.start, terminator.stop⟩ := by
    rw [extentOf, getLast?_concat]
    rfl
  rw [hextent] at hin ⊢
  have hordered : ∀ token ∈ first :: rest, token.stop ≤ terminator.start := fun token hmem =>
    (pairwise_append.1 hlaid.ordered).2.2 token hmem terminator (by simp)
  have hslice : ∀ token ∈ first :: rest, sql.slice? token.start token.stop = some token.text :=
    fun token hmem => hlaid.slice token (mem_append_left _ hmem)
  have hle : first.start ≤ terminator.start := hlaid.start_le (by simp)
  obtain ⟨front, hfront⟩ := exists_slice?_of_isPlace (hlaid.isPlace_start (by simp))
    (hlaid.isPlace_start (by simp)) hle
  have hterminator := hlaid.slice terminator (by simp)
  rw [htext] at hterminator
  refine ⟨front, hfront, slice?_append_slice? hfront hterminator, ?_, ?_, ?_⟩
  · obtain ⟨gap, hgap, htrim⟩ := exists_append_trimEnd front
    refine ⟨gap, hgap, ?_⟩
    rw [← append_assoc, ← htrim]
  · -- the first token is left, so something is
    obtain ⟨p, q, htrim, -⟩ := exists_trimEnd_of_within hfront (hslice first (by simp))
      (hsolid first (by simp)) (Nat.le_refl _) (hordered first (by simp))
    rcases front.trimEnd_eq_nil_or with hnil | hlast
    · rw [hnil] at htrim
      exact absurd htrim.symm (by simp [(hsolid first (by simp)).ne_nil])
    · exact hlast
  · intro token hmem hwithin hne
    rcases mem_append.1 (hin token hmem hwithin) with hbody | hlast
    · obtain ⟨p, q, htrim, hp⟩ := exists_trimEnd_of_within hfront (hslice token hbody)
        (hsolid token hbody) hwithin.1 (hordered token hbody)
      have hsize := add_byteSize_of_slice? (hslice token hbody)
      rw [htrim, byteSize_append, byteSize_append]
      dsimp only
      omega
    · rw [mem_singleton.1 hlast] at hne
      exact absurd rfl hne

variable {statement : Statement}

theorem Covers.extentOf_eq (h : Covers run statement) :
    extentOf run = ⟨statement.start, statement.stop⟩ := by
  rw [extentOf, h.start, h.stop]
  rfl

/-- A statement that covers a run has a text, from the first token of the run to the last one. -/
theorem Covers.exists_whole (h : Covers run statement) (hlaid : Laid sql run)
    (hmem : ∀ token ∈ run, token ∈ tokens sql) : ∃ whole,
      statement.text .keep sql = .ok whole ∧
      sql.slice? (extentOf run).start (extentOf run).stop = some whole ∧
      ∀ short, (short = whole ∨ Shortened sql (extentOf run) whole short) →
        Cut.Sound sql ⟨extentOf run, whole, short⟩ := by
  obtain ⟨first, hfirst, hstart⟩ := map_eq_some_iff.1 h.start
  obtain ⟨last, hlast, hstop⟩ := map_eq_some_iff.1 h.stop
  have hfirst := mem_of_head? hfirst
  have hlast := mem_of_getLast? hlast
  have hlt : statement.start < statement.stop := by
    have hwithin := within_extentOf hlaid hfirst
    have htoken := hlaid.start_lt_stop hfirst
    rw [h.extentOf_eq] at hwithin
    have hle : first.stop ≤ statement.stop := hwithin.2
    omega
  obtain ⟨whole, hwhole⟩ := exists_slice?_of_isPlace (hstart ▸ hlaid.isPlace_start hfirst)
    (hstop ▸ hlaid.isPlace_stop hlast) (Nat.le_of_lt hlt)
  rw [h.extentOf_eq]
  refine ⟨whole, slice_eq_ok_iff.2 hwhole, hwhole, fun short hshort => ?_⟩
  exact ⟨hwhole, hlt, ⟨first, hmem first hfirst, hstart⟩, ⟨last, hmem last hlast, hstop⟩, hshort⟩

/-- Without a terminator to lose, a statement has the same text under either policy. -/
theorem text_blockOnly (h : statement.terminator = none ∨ statement.endsBlock) :
    statement.text .blockOnly sql = statement.text .keep sql := by
  unfold text
  rcases h with h | h
  · rw [h]
  · cases statement.terminator <;> simp [h]

/-- A statement that covers a run is cut from the script. -/
theorem Covers.exists_cut (h : Covers run statement) (hlaid : Laid sql run)
    (hmem : ∀ token ∈ run, token ∈ tokens sql)
    (hin : ∀ token ∈ tokens sql, token.Within (extentOf run) → token ∈ run) : ∃ cut : Cut,
      cut.extent = extentOf run ∧ statement.text .keep sql = .ok cut.whole ∧
      statement.text .blockOnly sql = .ok cut.short ∧ cut.Sound sql := by
  obtain ⟨whole, hkeep, hwhole, hsound⟩ := h.exists_whole hlaid hmem
  by_cases hsame : statement.terminator = none ∨ statement.endsBlock
  · refine ⟨⟨extentOf run, whole, whole⟩, rfl, hkeep, ?_, hsound whole (.inl rfl)⟩
    rw [text_blockOnly hsame, hkeep]
  · rw [not_or, ← ne_eq, ne_none_iff_exists', Bool.not_eq_true] at hsame
    obtain ⟨⟨offset, hterminator⟩, hblock⟩ := hsame
    obtain ⟨body, terminator, rfl, hbody, htext, rfl⟩ := h.terminator offset hterminator
    obtain ⟨front, hfront, hwhole', hshortened⟩ := exists_shortened hlaid hbody htext
      (fun token hbody => solid_of_mem_tokens (hmem token (mem_append_left _ hbody))) hin
    obtain rfl : front ++ [';'] = whole := Option.some.inj (hwhole'.symm.trans hwhole)
    refine ⟨⟨extentOf (body ++ [terminator]), _, _⟩, rfl, hkeep, ?_, hsound _ (.inr hshortened)⟩
    rw [h.extentOf_eq] at hfront
    simp only [text, hterminator, hblock, Bool.false_eq_true, if_false,
      slice_eq_ok_iff.2 hfront, ok_bind]
    rfl

/-- The statements that cover runs of the script are cut from it one by one. -/
theorem exists_cuts {runs : List (List Token)} {statements : List Statement}
    (h : Forall₂ Covers runs statements)
    (hcut : ∀ run ∈ runs, ∀ statement, Covers run statement → ∃ cut : Cut,
      cut.extent = extentOf run ∧ statement.text .keep sql = .ok cut.whole ∧
      statement.text .blockOnly sql = .ok cut.short ∧ cut.Sound sql) : ∃ cuts : List Cut,
      cuts.map Cut.extent = runs.map extentOf ∧
      statements.mapM (text .keep sql) = .ok (cuts.map Cut.whole) ∧
      statements.mapM (text .blockOnly sql) = .ok (cuts.map Cut.short) ∧
      ∀ cut ∈ cuts, cut.Sound sql := by
  induction h with
  | nil => exact ⟨[], rfl, rfl, rfl, by simp⟩
  | @cons run statement runs statements hcovers _ ih =>
    obtain ⟨cut, hextent, hkeep, hshort, hsound⟩ := hcut run (by simp) statement hcovers
    obtain ⟨cuts, hextents, hkeeps, hshorts, hsounds⟩ :=
      ih fun run hrun => hcut run (mem_cons_of_mem _ hrun)
    refine ⟨cut :: cuts, ?_, ?_, ?_, forall_mem_cons.2 ⟨hsound, hsounds⟩⟩
    · rw [map_cons, map_cons, hextent, hextents]
    · rw [mapM_cons, hkeep, hkeeps]
      rfl
    · rw [mapM_cons, hshort, hshorts]
      rfl

/-- A script is split into the texts of the runs that are more than a `;`. -/
theorem split_keep_of_filter {texts : List Text} (h : Divided {} (tokens sql) runs)
    (htexts : Forall₂
      (fun run text => sql.slice? (extentOf run).start (extentOf run).stop = some text)
      (runs.filter fun run => !isLone run) texts) : split .keep sql = .ok texts := by
  have hcovers := h.covers Nesting.clear_default (laid_tokens sql) none
  unfold split all
  generalize collect {} none none (tokens sql) = statements at hcovers
  generalize runs.filter (fun run => !isLone run) = kept at hcovers htexts
  clear h
  induction hcovers generalizing texts with
  | nil => cases htexts; rfl
  | @cons run statement runs statements hrun _ ih =>
    cases htexts with
    | cons htext htexts =>
      rw [hrun.extentOf_eq] at htext
      have hkeep : statement.text .keep sql = .ok _ := slice_eq_ok_iff.2 htext
      rw [mapM_cons, hkeep, ih htexts]
      rfl

/-- A script is split into the texts of its runs, if none is nothing but a `;`. -/
theorem split_keep_of_divided {texts : List Text} (h : Divided {} (tokens sql) runs)
    (hlone : ∀ run ∈ runs, isLone run = false)
    (htexts : Forall₂
      (fun run text => sql.slice? (extentOf run).start (extentOf run).stop = some text)
      runs texts) : split .keep sql = .ok texts := by
  refine split_keep_of_filter h ?_
  rwa [filter_eq_self.2 fun run hrun => by simp [hlone run hrun]]

/-- The extents of runs are in order. -/
theorem pairwise_extentOf (hlaid : Laid sql runs.flatten) (hne : ∀ run ∈ runs, run ≠ []) :
    runs.Pairwise fun a b => (extentOf a).stop ≤ (extentOf b).start := by
  have hcross := (pairwise_flatten.1 hlaid.ordered).2
  refine hcross.imp_of_mem ?_
  intro a b ha hb hbefore
  obtain ⟨first, rest, rfl⟩ := exists_cons_of_ne_nil (hne a ha)
  obtain ⟨first', rest', rfl⟩ := exists_cons_of_ne_nil (hne b hb)
  have hlast : rest.getLast?.getD first ∈ first :: rest :=
    mem_of_getLast? getLast?_cons
  have hle := hbefore _ hlast first' mem_cons_self
  simpa [extentOf, getLast?_cons] using hle

/-- Extents in order share no token. -/
theorem eq_of_within_within {cuts : List Cut} {a b : Cut}
    (h : cuts.Pairwise fun a b => a.extent.stop ≤ b.extent.start)
    (htoken : token.start < token.stop)
    (ha : a ∈ cuts) (hb : b ∈ cuts) (hina : token.Within a.extent) (hinb : token.Within b.extent) :
    a = b := by
  have hapart : a = b ∨ a.extent.stop ≤ b.extent.start ∨ b.extent.stop ≤ a.extent.start :=
    Pairwise.forall_of_forall_of_flip
      (R := fun a b => a = b ∨ a.extent.stop ≤ b.extent.start ∨ b.extent.stop ≤ a.extent.start)
      (fun _ _ => .inl rfl) (h.imp fun h => .inr (.inl h)) (h.imp fun h => .inr (.inr h)) ha hb
  rcases hapart with heq | hbefore | hafter
  · exact heq
  · have := hina.2
    have := hinb.1
    omega
  · have := hina.1
    have := hinb.2
    omega

/-- The token is a `;` that no token precedes in its statement. -/
def Lone (runs : List (List Token)) (token : Token) : Prop :=
  [token] ∈ runs ∧ token.text = [';']

section Cuts

variable {cuts : List Cut}

theorem Divided.laid (h : Divided {} (tokens sql) runs) : Laid sql runs.flatten := by
  rw [h.flatten_eq]
  exact laid_tokens sql

theorem Divided.laid_run (h : Divided {} (tokens sql) runs) (hrun : run ∈ runs) : Laid sql run :=
  h.laid.sublist (sublist_flatten_of_mem hrun)

/-- Under either policy the statements of a script are cut where its runs lie, but for the runs that
are nothing but a `;`. -/
theorem Divided.exists_cuts (h : Divided {} (tokens sql) runs) : ∃ cuts : List Cut,
    cuts.map Cut.extent = (runs.filter fun run => !isLone run).map extentOf ∧
    split .keep sql = .ok (cuts.map Cut.whole) ∧ split .blockOnly sql = .ok (cuts.map Cut.short) ∧
    ∀ cut ∈ cuts, cut.Sound sql := by
  refine Statement.exists_cuts (h.covers Nesting.clear_default (laid_tokens sql) none)
    fun run hrun statement hcovers => ?_
  have hrun := mem_of_mem_filter hrun
  refine hcovers.exists_cut (h.laid_run hrun) (fun token hmem => ?_) fun token hmem hin => ?_
  · rw [← h.flatten_eq]
    exact mem_flatten.2 ⟨run, hrun, hmem⟩
  · rw [← h.flatten_eq] at hmem
    obtain ⟨own, hown, hmem⟩ := mem_flatten.1 hmem
    rwa [eq_of_within h.laid hown hrun (h.ne_nil run hrun) hmem hin]

theorem Divided.pairwise_cuts (h : Divided {} (tokens sql) runs)
    (hcuts : cuts.map Cut.extent = (runs.filter fun run => !isLone run).map extentOf) :
    cuts.Pairwise fun a b => a.extent.stop ≤ b.extent.start := by
  have hextents : ((runs.filter fun run => !isLone run).map extentOf).Pairwise
      fun a b => a.stop ≤ b.start :=
    pairwise_map.2 ((pairwise_extentOf h.laid h.ne_nil).filter _)
  rw [← hcuts] at hextents
  exact pairwise_map.1 hextents

/-- A `;` that no token precedes in its statement lies in no statement. -/
theorem Divided.not_within_of_lone (h : Divided {} (tokens sql) runs)
    (hcuts : cuts.map Cut.extent = (runs.filter fun run => !isLone run).map extentOf)
    (hlone : Lone runs token) : ∀ cut ∈ cuts, ¬ token.Within cut.extent := by
  intro cut hcut hin
  obtain ⟨run, hrun, hextent⟩ : ∃ run ∈ runs.filter fun run => !isLone run,
      extentOf run = cut.extent := by
    rw [← List.mem_map, ← hcuts]
    exact List.mem_map_of_mem hcut
  obtain ⟨hrun, hkept⟩ := mem_filter.1 hrun
  rw [← hextent] at hin
  rw [eq_of_within h.laid hlone.1 hrun (h.ne_nil run hrun) mem_cons_self hin,
    isLone_iff.2 ⟨token, rfl, hlone.2⟩] at hkept
  cases hkept

/-- Every other token lies in exactly one statement. -/
theorem Divided.exists_unique_within (h : Divided {} (tokens sql) runs)
    (hcuts : cuts.map Cut.extent = (runs.filter fun run => !isLone run).map extentOf)
    (hmem : token ∈ tokens sql) (hlone : ¬ Lone runs token) :
    ∃! cut, cut ∈ cuts ∧ token.Within cut.extent := by
  obtain ⟨run, hrun, hmemRun⟩ := mem_flatten.1 (h.flatten_eq ▸ hmem)
  have hkept : isLone run = false := by
    rw [Bool.eq_false_iff]
    intro hone
    obtain ⟨only, rfl, htext⟩ := isLone_iff.1 hone
    obtain rfl := mem_singleton.1 hmemRun
    exact hlone ⟨hrun, htext⟩
  obtain ⟨cut, hcut, hextent⟩ : ∃ cut ∈ cuts, cut.extent = extentOf run := by
    rw [← List.mem_map, hcuts]
    exact List.mem_map_of_mem (mem_filter.2 ⟨hrun, by simp [hkept]⟩)
  have hin := within_extentOf (h.laid_run hrun) hmemRun
  rw [← hextent] at hin
  refine ⟨cut, ⟨hcut, hin⟩, ?_⟩
  rintro other ⟨hother, hinOther⟩
  exact eq_of_within_within (h.pairwise_cuts hcuts) ((laid_tokens sql).start_lt_stop hmem) hother
    hcut hinOther hin

end Cuts

/-- Under either policy a script is split into the same statements. They follow one another without
overlap, each from the start of a token to the end of one. Every token lies in exactly one of them,
except a `;` that no token precedes in its statement, which lies in none. A statement that loses its
terminator keeps its other tokens. -/
theorem split_keeps_tokens (sql : Text) : ∃ (runs : List (List Token)) (cuts : List Cut),
    Divided {} (tokens sql) runs ∧
    split .keep sql = .ok (cuts.map Cut.whole) ∧ split .blockOnly sql = .ok (cuts.map Cut.short) ∧
    (∀ cut ∈ cuts, cut.Sound sql) ∧ cuts.Pairwise (fun a b => a.extent.stop ≤ b.extent.start) ∧
    ∀ token ∈ tokens sql,
      (Lone runs token → ∀ cut ∈ cuts, ¬ token.Within cut.extent) ∧
      (¬ Lone runs token → ∃! cut, cut ∈ cuts ∧ token.Within cut.extent) := by
  obtain ⟨runs, hruns⟩ := exists_divided {} (tokens sql)
  obtain ⟨cuts, hcuts, hkeep, hshort, hsound⟩ := hruns.exists_cuts
  refine ⟨runs, cuts, hruns, hkeep, hshort, hsound, hruns.pairwise_cuts hcuts, ?_⟩
  intro token hmem
  exact ⟨hruns.not_within_of_lone hcuts, hruns.exists_unique_within hcuts hmem⟩

end Statement

end SqlScript
