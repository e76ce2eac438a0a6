import SqlScript.Proofs.Bracket

/-!
# Which statements keep their terminator

When only blocks keep their terminators, a statement is meant to keep its `;` if the token before it
is an `END` that closes a `BEGIN` of the statement (`Statement.ClosesCompound`). The splitter looks
at the block that was closed last. That is the last of the blocks that the tokens close
(`Nesting.closings`), however far back it lies (`Nesting.lastClosed_through`). So an `END` that
closes nothing keeps the `;` too, if the last block closed before it in the script is a
`BEGIN … END` (`Statement.StraysBehindCompound`).

`Statement.split_keeps_terminator_iff` says that these are the two cases. The second one goes back
to an earlier statement in `Statement.split_keeps_stray_terminator`.
-/

namespace SqlScript

open List Option Nesting

variable {body : List Token} {a b nesting nesting' : Nesting}

namespace Nesting

/-! ## The blocks that are closed -/

/-- The block that the token closes, when `next` follows it. -/
def closed? (nesting : Nesting) (token : Token) (next : Option Token) : Option Block :=
  if !nesting.inBracket && nesting.quote.isNone && token.is "end".toList &&
      !next.any (·.is "if".toList) then
    nesting.blocks.head?
  else none

/-- The blocks that the tokens close one after another, when `next` follows them. -/
def closings (nesting : Nesting) : List Token → Option Token → List Block
  | [], _ => []
  | token :: run, next => (nesting.closed? token (run.head?.or next)).toList ++
      (nesting.after token (run.head?.or next)).closings run next

/-- A word that is `END` up to case is none of the other words and symbols the splitter knows. -/
theorem is_end_cases {token : Token} (h : token.is "end".toList) :
    token.isQuote = false ∧ token.text ≠ ['['] ∧ token.is "begin".toList = false ∧
      token.is "case".toList = false := by
  have hfold : token.text.toLowerAscii = Text.toLowerAscii "end".toList := eq_of_beq h
  have hlength : token.text.length = 3 := by
    simpa [Text.toLowerAscii] using congrArg List.length hfold
  have hother : ∀ word : Text, word.toLowerAscii ≠ Text.toLowerAscii "end".toList →
      token.is word = false := fun word hword =>
    beq_eq_false_iff_ne.2 (hfold ▸ hword.symm)
  refine ⟨?_, ?_, hother _ (by decide), hother _ (by decide)⟩
  · rw [Bool.eq_false_iff]
    intro hquote
    simp only [Token.isQuote, Bool.or_eq_true, beq_iff_eq] at hquote
    rcases hquote with htext | htext <;> simp [htext] at hlength
  · intro htext
    simp [htext] at hlength

/-- The block closed last is the one that the token closes, if it closes any. -/
theorem lastClosed_after (nesting : Nesting) (token : Token) (next : Option Token) :
    (nesting.after token next).lastClosed = (nesting.closed? token next).or nesting.lastClosed := by
  obtain ⟨blocks, lastClosed, quote, inBracket⟩ := nesting
  cases inBracket with
  | true => rfl
  | false =>
    cases quote with
    | some mark =>
      simp only [after, closed?, Bool.false_eq_true, if_false]
      split <;> rfl
    | none =>
      by_cases hend : (token.is "end".toList && !next.any (·.is "if".toList))
      · obtain ⟨hquote, hbracket, hbegin, hcase⟩ := is_end_cases (Bool.and_eq_true_iff.1 hend).1
        simp only [after, closed?, hquote, beq_eq_false_iff_ne.2 hbracket, hbegin, hcase, hend,
          Bool.false_eq_true, if_false, if_true, Bool.not_false, isNone_none, Bool.true_and]
        cases blocks <;> rfl
      · simp only [after, closed?, hend, Bool.false_eq_true, if_false, Bool.not_false,
          isNone_none, Bool.true_and, none_or]
        repeat' split
        all_goals rfl

/-- The block closed last is the last one that the tokens close, if they close any. -/
theorem lastClosed_through (nesting : Nesting) (run : List Token) (next : Option Token) :
    (nesting.through run next).lastClosed =
      (nesting.closings run next).getLast?.or nesting.lastClosed := by
  induction run generalizing nesting with
  | nil => rfl
  | cons token run ih =>
    rw [through, ih, lastClosed_after, closings, getLast?_append, Option.or_assoc]
    cases nesting.closed? token (run.head?.or next) <;> rfl

theorem through_append (nesting : Nesting) (run run' : List Token) (next : Option Token) :
    nesting.through (run ++ run') next =
      (nesting.through run (run'.head?.or next)).through run' next := by
  induction run generalizing nesting with
  | nil => rfl
  | cons token run ih =>
    rw [cons_append, through, ih, through, head?_append, Option.or_assoc]

theorem Passes.through_eq {run : List Token} {next : Option Token}
    (h : Passes nesting run next nesting') : nesting.through run next = nesting' := by
  induction h with
  | nil => rfl
  | cons _ _ ih => exact ih

/-- No token that is passed over ends a statement. -/
theorem Passes.isEnd_eq_false {last : Token}
    {next : Option Token} (h : Passes nesting (body ++ [last]) next nesting') :
    (nesting.through body (some last)).isEnd last = false := by
  induction body generalizing nesting with
  | nil =>
    cases h with
    | cons hend _ => exact hend
  | cons token body ih =>
    cases h with
    | cons _ hlater =>
      have hnext : ((body ++ [last]).head?.or next) = body.head?.or (some last) := by
        rw [head?_append, Option.or_assoc]
        rfl
      rw [through, ← hnext]
      exact ih hlater

/-! ## What is open, apart from what was closed -/

/-- The same blocks, literal and bracketed identifier are open. -/
structure SameOpen (a b : Nesting) : Prop where
  blocks : a.blocks = b.blocks
  quote : a.quote = b.quote
  inBracket : a.inBracket = b.inBracket

theorem Clear.sameOpen (ha : a.Clear) (hb : b.Clear) : SameOpen a b :=
  ⟨ha.blocks.trans hb.blocks.symm, ha.quote.trans hb.quote.symm,
    ha.inBracket.trans hb.inBracket.symm⟩

theorem SameOpen.closed?_eq (h : SameOpen a b) (token : Token)
    (next : Option Token) : a.closed? token next = b.closed? token next := by
  rw [closed?, closed?, h.blocks, h.quote, h.inBracket]

theorem SameOpen.after (h : SameOpen a b) (token : Token) (next : Option Token) :
    SameOpen (a.after token next) (b.after token next) := by
  obtain ⟨blocks, lastClosed, quote, inBracket⟩ := a
  obtain ⟨blocks', lastClosed', quote', inBracket'⟩ := b
  obtain ⟨rfl, rfl, rfl⟩ := h
  simp only [Nesting.after]
  repeat' split
  all_goals exact ⟨rfl, rfl, rfl⟩

theorem SameOpen.through (h : SameOpen a b) (run : List Token)
    (next : Option Token) : SameOpen (a.through run next) (b.through run next) := by
  induction run generalizing a b with
  | nil => exact h
  | cons token run ih => exact ih (h.after token _)

end Nesting

namespace Statement

/-! ## The two cases -/

/-- The last token of the statement, before its terminator, is an `END` that closes a `BEGIN` of the
statement. -/
def ClosesCompound (body : List Token) (terminator : Token) : Prop :=
  ∃ init last, body = init ++ [last] ∧ last.is "end".toList = true ∧
    (Nesting.through {} init (some last)).closed? last (some terminator) = some .compound

/-- The last token of the statement, before its terminator, is an `END` that closes nothing, and of
the blocks that the script closes before it the last one is a `BEGIN … END`. -/
def StraysBehindCompound (earlier body : List Token) (terminator : Token) : Prop :=
  ∃ init last, body = init ++ [last] ∧ last.is "end".toList = true ∧
    (Nesting.through {} init (some last)).closed? last (some terminator) = none ∧
    (Nesting.closings {} (earlier ++ init) (some last)).getLast? = some .compound

variable {terminator : Token}

/-- Behind a run the splitter is in the state in which it met the terminator. -/
theorem through_run (hpasses : nesting.Passes body (some terminator) nesting')
    (hend : nesting'.isEnd terminator) (later : List Token) (next : Option Token) :
    nesting.through (body ++ [terminator] ++ later) next = nesting'.through later next := by
  rw [append_assoc, singleton_append, through_append, head?_cons,
    some_or, hpasses.through_eq, Nesting.through, after_of_isEnd hend]

/-- The statement of a run that ends with a terminator, behind as many statements as there are runs
before it that are more than a `;`. -/
theorem exists_collect_run {tokens : List Token} {runs : List (List Token)}
    (h : Divided nesting tokens runs) (hclear : nesting.Clear) {sql : Text}
    (hlaid : Laid sql tokens) {earlier later : List (List Token)}
    (hruns : runs = earlier ++ (body ++ [terminator]) :: later)
    (hend : (nesting.through (earlier.flatten ++ body) (some terminator)).isEnd terminator)
    (hbody : body ≠ []) (previous : Option Token) : ∃ done rest,
      done.length = (earlier.filter fun run => !isLone run).length ∧
      (nesting.through earlier.flatten body.head?).Clear ∧
      collect nesting none previous tokens = done ++ ⟨(extentOf body).start, terminator.stop,
        some terminator.start, body.getLast?.any (·.is "end".toList) &&
          (nesting.through (earlier.flatten ++ body) (some terminator)).lastClosed ==
            some .compound⟩ :: rest := by
  induction h generalizing earlier previous with
  | nil => simp at hruns
  | @last nesting nesting' run hne hpasses =>
    -- the last run may lack a terminator, and this one does
    cases earlier with
    | nil =>
      obtain rfl : run = body ++ [terminator] := (List.cons.inj hruns).1
      rw [flatten_nil, nil_append, hpasses.isEnd_eq_false] at hend
      cases hend
    | cons run' earlier => simp at hruns
  | @cons nesting nesting' front rest divider runs hpasses hdivider _ ih =>
    have hstarts : ∀ token ∈ front, token.start < divider.start := fun token hmem =>
      (pairwise_append.1 hlaid.pairwise_start).2.2 token hmem divider mem_cons_self
    cases earlier with
    | nil =>
      obtain ⟨hrun, -⟩ := List.cons.inj hruns
      obtain ⟨rfl, hlast⟩ := append_inj' hrun rfl
      obtain rfl := singleton_inj.1 hlast
      obtain ⟨first, front, rfl⟩ := exists_cons_of_ne_nil hbody
      refine ⟨[], collect nesting' none (some divider) rest, rfl, hclear, ?_⟩
      rw [collect_cons_append hpasses, collect, if_pos hdivider, getD_some,
        if_pos (hstarts first mem_cons_self), after_of_isEnd hdivider,
        getLast?_cons, flatten_nil, nil_append, nil_append, hpasses.through_eq]
      rfl
    | cons run earlier =>
      obtain ⟨rfl, hlaterRuns⟩ := List.cons.inj hruns
      have hthrough := through_run hpasses hdivider
      have hlater := hlaid.sublist
        ((sublist_cons_self divider rest).trans (sublist_append_right front _))
      rw [flatten_cons, append_assoc, hthrough] at hend
      obtain ⟨done, tail, hlength, hbegin, hcollect⟩ :=
        ih (isEnd_iff.1 hdivider).1 hlater hlaterRuns hend (some divider)
      rw [flatten_cons, hthrough, append_assoc (front ++ [divider]), hthrough]
      cases front with
      | nil =>
        cases hpasses
        refine ⟨done, tail, ?_, hbegin, ?_⟩
        · have hlone : isLone [divider] :=
            isLone_iff.2 ⟨divider, rfl, (isEnd_iff.1 hdivider).2⟩
          rw [hlength, nil_append, filter_cons_of_neg (by simp [hlone])]
        · rw [nil_append, collect_of_isEnd hdivider]
          exact hcollect
      | cons first front =>
        obtain ⟨endsBlock, hfirst⟩ := exists_collect_of_isEnd hdivider
          (hstarts first mem_cons_self) (some (front.getLast?.getD first)) rest
        refine ⟨⟨first.start, divider.stop, some divider.start, endsBlock⟩ :: done, tail, ?_,
          hbegin, ?_⟩
        · rw [filter_cons_of_pos (by simp [isLone]), length_cons, length_cons, hlength]
        · rw [collect_cons_append hpasses, hfirst, hcollect, cons_append]

/-- Whether the last block closed before a terminator is a `BEGIN … END` and an `END` stands before
the terminator. -/
theorem endsBlock_iff {earlier : List Token}
    (hclear : (Nesting.through {} earlier body.head?).Clear) :
    (body.getLast?.any (·.is "end".toList) &&
      (Nesting.through {} (earlier ++ body) (some terminator)).lastClosed == some .compound) ↔
      ClosesCompound body terminator ∨ StraysBehindCompound earlier body terminator := by
  rcases eq_nil_or_concat body with rfl | ⟨init, last, rfl⟩
  · simp [ClosesCompound, StraysBehindCompound]
  · rw [concat_eq_append] at hclear ⊢
    -- the statement's own tokens tell what is open, since nothing is when it starts
    have hopen : Nesting.SameOpen (Nesting.through {} (earlier ++ init) (some last))
        (Nesting.through {} init (some last)) := by
      rw [through_append]
      rw [head?_append] at hclear
      exact (hclear.sameOpen clear_default).through init (some last)
    have hlast : (Nesting.through {} (earlier ++ (init ++ [last])) (some terminator)).lastClosed =
        ((Nesting.through {} init (some last)).closed? last (some terminator)).or
          (Nesting.closings {} (earlier ++ init) (some last)).getLast? := by
      rw [← append_assoc, through_append, Nesting.through, Nesting.through, lastClosed_after]
      simp only [head?_cons, head?_nil, some_or, none_or]
      rw [hopen.closed?_eq, lastClosed_through, or_none]
    rw [getLast?_concat, any_some, hlast, Bool.and_eq_true, beq_iff_eq, or_eq_some_iff]
    constructor
    · rintro ⟨hend, hcloses | ⟨hnone, hstale⟩⟩
      · exact .inl ⟨init, last, rfl, hend, hcloses⟩
      · exact .inr ⟨init, last, rfl, hend, hnone, hstale⟩
    · rintro (⟨init', last', hbody, hend, hcloses⟩ | ⟨init', last', hbody, hend, hnone, hstale⟩)
      · obtain ⟨rfl, hlast⟩ := append_inj' hbody rfl
        obtain rfl := singleton_inj.1 hlast
        exact ⟨hend, .inl hcloses⟩
      · obtain ⟨rfl, hlast⟩ := append_inj' hbody rfl
        obtain rfl := singleton_inj.1 hlast
        exact ⟨hend, .inr ⟨hnone, hstale⟩⟩

/-- The texts of a list of statements, one of which is given. -/
theorem exists_mapM_text {policy : TerminatorPolicy} {sql : Text} {done rest : List Statement}
    {statement : Statement} {texts : List Text}
    (h : (done ++ statement :: rest).mapM (text policy sql) = .ok texts) : ∃ before text after,
      texts = before ++ text :: after ∧ before.length = done.length ∧
      statement.text policy sql = .ok text := by
  induction done generalizing texts with
  | nil =>
    rw [nil_append, mapM_cons] at h
    obtain ⟨text, htext, h⟩ := exists_of_bind_eq_ok h
    obtain ⟨after, -, h⟩ := exists_of_bind_eq_ok h
    exact ⟨[], text, after, (Except.ok.inj h).symm, rfl, htext⟩
  | cons first done ih =>
    rw [cons_append, mapM_cons] at h
    obtain ⟨own, -, h⟩ := exists_of_bind_eq_ok h
    obtain ⟨others, hothers, h⟩ := exists_of_bind_eq_ok h
    obtain ⟨before, text, after, rfl, hlength, htext⟩ := ih hothers
    exact ⟨own :: before, text, after, (Except.ok.inj h).symm, congrArg Nat.succ hlength, htext⟩

/-- When only blocks keep their terminators, a statement that ends with a terminator either keeps it
or loses it together with the blanks before it. It keeps it exactly if the token before it is an
`END`, and that closes a `BEGIN` of the statement, or else closes nothing and the last block that
was closed before it in the script is a `BEGIN … END`. -/
theorem split_keeps_terminator_iff {sql : Text} {runs earlier later : List (List Token)}
    {body : List Token} {terminator : Token} (h : Divided {} (tokens sql) runs)
    (hruns : runs = earlier ++ (body ++ [terminator]) :: later)
    (hend : (Nesting.through {} (earlier.flatten ++ body) (some terminator)).isEnd terminator =
      true)
    (hbody : body ≠ []) : ∃ before text after front,
      split .blockOnly sql = .ok (before ++ text :: after) ∧
      before.length = (earlier.filter fun run => !isLone run).length ∧
      sql.slice? (extentOf body).start terminator.start = some front ∧
      (text = front ++ [';'] ∨ text = front.trimEnd) ∧
      (text = front ++ [';'] ↔ ClosesCompound body terminator ∨
        StraysBehindCompound earlier.flatten body terminator) := by
  obtain ⟨done, rest, hlength, hclear, hcollect⟩ := exists_collect_run h Nesting.clear_default
    (laid_tokens sql) hruns hend hbody none
  have hrun : Laid sql (body ++ [terminator]) := h.laid_run (by simp [hruns])
  obtain ⟨first, tail, rfl⟩ := List.exists_cons_of_ne_nil hbody
  have hle : first.start ≤ terminator.start :=
    Nat.le_of_lt ((List.pairwise_append.1 hrun.pairwise_start).2.2 first List.mem_cons_self
      terminator List.mem_cons_self)
  obtain ⟨front, hfront⟩ := Text.exists_slice?_of_isPlace
    (hrun.isPlace_start (show first ∈ first :: tail ++ [terminator] by simp))
    (hrun.isPlace_start (show terminator ∈ first :: tail ++ [terminator] by simp)) hle
  have hwhole : sql.slice? first.start terminator.stop = some (front ++ [';']) := by
    have hterminator := hrun.slice terminator (by simp)
    rw [(Nesting.isEnd_iff.1 hend).2] at hterminator
    exact Text.slice?_append_slice? hfront hterminator
  obtain ⟨texts, htexts⟩ := exists_split_eq_ok .blockOnly sql
  have hall := htexts
  rw [split, all, hcollect] at hall
  obtain ⟨before, text, after, rfl, hbefore, htext⟩ := exists_mapM_text hall
  refine ⟨before, text, after, front, htexts, hbefore.trans hlength, hfront, ?_⟩
  rw [← endsBlock_iff hclear]
  cases hkeeps : (first :: tail).getLast?.any (·.is "end".toList) &&
      (Nesting.through {} (earlier.flatten ++ first :: tail) (some terminator)).lastClosed ==
        some Block.compound with
  | true =>
    rw [hkeeps] at htext
    have hslice : sql.slice first.start terminator.stop = .ok text := htext
    obtain rfl := Option.some.inj (hwhole.symm.trans (Text.slice_eq_ok_iff.1 hslice))
    exact ⟨.inl rfl, iff_of_true rfl rfl⟩
  | false =>
    rw [hkeeps] at htext
    obtain ⟨body, hslice, htrim⟩ := exists_of_bind_eq_ok
      (show (sql.slice first.start terminator.start >>= fun body => .ok body.trimEnd) = .ok text
        from htext)
    obtain rfl := Option.some.inj (hfront.symm.trans (Text.slice_eq_ok_iff.1 hslice))
    obtain rfl := Except.ok.inj htrim
    refine ⟨.inr rfl, iff_of_false (fun hsame => ?_) Bool.false_ne_true⟩
    -- what is left is shorter than what it would keep
    have hfront := Text.trimEnd_prefix front
    have hshort := hfront.length_le
    rw [hsame, List.length_append, List.length_singleton] at hshort
    omega

/-- A block with a statement in it, and an `END` too many behind it. -/
theorem divided_stray_end : Divided {} (tokens "begin a; end; end;".toList)
    [[⟨0, 5, "begin".toList, false⟩, ⟨6, 7, "a".toList, false⟩, ⟨7, 8, [';'], false⟩,
      ⟨9, 12, "end".toList, false⟩] ++ [⟨12, 13, [';'], false⟩],
      [⟨14, 17, "end".toList, false⟩] ++ [⟨17, 18, [';'], false⟩]] := by
  have htokens : tokens "begin a; end; end;".toList =
      [⟨0, 5, "begin".toList, false⟩, ⟨6, 7, "a".toList, false⟩, ⟨7, 8, [';'], false⟩,
        ⟨9, 12, "end".toList, false⟩] ++ ⟨12, 13, [';'], false⟩ ::
        ([⟨14, 17, "end".toList, false⟩] ++ ⟨17, 18, [';'], false⟩ :: []) := by decide +kernel
  rw [htokens]
  have hblock : Nesting.Passes {} [⟨0, 5, "begin".toList, false⟩, ⟨6, 7, "a".toList, false⟩,
      ⟨7, 8, [';'], false⟩, ⟨9, 12, "end".toList, false⟩] (some ⟨12, 13, [';'], false⟩)
      { lastClosed := some .compound } :=
    .cons (by decide) (.cons (by decide) (.cons (by decide) (.cons (by decide) .nil)))
  have hstray : Nesting.Passes { lastClosed := some .compound } [⟨14, 17, "end".toList, false⟩]
      (some ⟨17, 18, [';'], false⟩) { lastClosed := some .compound } :=
    .cons (by decide) .nil
  exact .cons hblock (by decide) (.cons hstray (by decide) .nil)

/-- The `END` that closes the block keeps the terminator. -/
theorem split_keeps_block_terminator : ∃ before text after front,
    split .blockOnly "begin a; end; end;".toList = .ok (before ++ text :: after) ∧
    before.length = 0 ∧ Text.slice? "begin a; end; end;".toList 0 12 = some front ∧
    (text = front ++ [';'] ∨ text = front.trimEnd) ∧
    (text = front ++ [';'] ↔ ClosesCompound [⟨0, 5, "begin".toList, false⟩,
      ⟨6, 7, "a".toList, false⟩, ⟨7, 8, [';'], false⟩, ⟨9, 12, "end".toList, false⟩]
        ⟨12, 13, [';'], false⟩ ∨
      StraysBehindCompound [] [⟨0, 5, "begin".toList, false⟩, ⟨6, 7, "a".toList, false⟩,
        ⟨7, 8, [';'], false⟩, ⟨9, 12, "end".toList, false⟩] ⟨12, 13, [';'], false⟩) :=
  split_keeps_terminator_iff divided_stray_end (List.nil_append _).symm (by decide) (by decide)

/-- An `END` that closes nothing keeps the terminator, since a block was closed in the statement
before. -/
theorem split_keeps_stray_terminator :
    (∃ runs, Divided {} (tokens "begin a; end; end;".toList) runs ∧
      runs.getLast? = some [⟨14, 17, "end".toList, false⟩, ⟨17, 18, [';'], false⟩]) ∧
    ¬ ClosesCompound [⟨14, 17, "end".toList, false⟩] ⟨17, 18, [';'], false⟩ ∧
    (split .blockOnly "begin a; end; end;".toList).toOption =
      some ["begin a; end;".toList, "end;".toList] := by
  refine ⟨⟨_, divided_stray_end, rfl⟩, ?_, by decide +kernel⟩
  rintro ⟨init, last, hbody, -, hcloses⟩
  obtain ⟨rfl, hlast⟩ := List.append_inj' (List.nil_append _ |>.trans hbody) rfl
  obtain rfl := List.singleton_inj.1 hlast
  exact absurd hcloses (by decide)

end Statement

end SqlScript
