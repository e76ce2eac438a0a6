import SqlScript.Proofs.Excerpt

/-!
# Splitting the statements again

A statement depends on nothing but its own text : if no statement of a script begins in a literal,
each of them is split into itself, and the statements joined by line breaks are split into the same
ones (`Statement.split_intercalate`). Without an opening bracket no statement begins in a literal,
since the splitter then knows of the same literals as the scanner (`Statement.Divided.begins`).

The scanner reads a statement on its own into the same tokens, and for the splitter only the texts
of tokens count, and of the nesting everything but the block that was closed last
(`Nesting.Passes.congr`). So each statement but the last is `Sealed`, and the last one is `Sealed`
or `Final`; that is what `Standing` says of a list of texts, and such a list is what its own join is
split into (`Statement.Standing.split_join`).
-/

namespace SqlScript

open List Option Token Text

variable {runs : List (List Token)} {a b : Nesting} {sql : Text}

/-! ## What the splitter sees of a run -/

namespace Nesting

/-- The nestings differ at most in the block that was closed last. -/
structure Alike (a b : Nesting) : Prop where
  blocks : a.blocks = b.blocks
  quote : a.quote = b.quote
  inBracket : a.inBracket = b.inBracket

theorem Clear.alike (ha : a.Clear) (hb : b.Clear) : Alike a b :=
  ⟨ha.blocks.trans hb.blocks.symm, ha.quote.trans hb.quote.symm,
    ha.inBracket.trans hb.inBracket.symm⟩

theorem Alike.isEnd (h : Alike a b) (token : Token) : a.isEnd token = b.isEnd token := by
  rw [Nesting.isEnd, Nesting.isEnd, h.blocks, h.quote, h.inBracket]

theorem Alike.after (h : Alike a b) (token : Token) (next : Option Token) :
    Alike (a.after token next) (b.after token next) := by
  unfold Nesting.after
  rw [h.inBracket, h.quote, h.blocks]
  split
  · exact ⟨rfl, rfl, rfl⟩
  · cases hquote : b.quote with
    | some mark =>
      dsimp only
      split
      · exact ⟨rfl, rfl, rfl⟩
      · exact h
    | none =>
      dsimp only
      split
      · exact ⟨rfl, rfl, rfl⟩
      split
      · exact ⟨rfl, rfl, rfl⟩
      split
      · exact ⟨rfl, rfl, rfl⟩
      split
      · exact ⟨rfl, rfl, rfl⟩
      split
      · cases hblocks : b.blocks with
        | nil => exact h
        | cons block outer => exact ⟨rfl, rfl, rfl⟩
      · exact h

/-- The splitter passes over a run as it does over any other with the same texts. -/
theorem Passes.congr {a' : Nesting} {run run' : List Token} {next next' : Option Token}
    (h : Passes a run next b) (ha : Alike a a') (hrun : run.map text = run'.map text)
    (hnext : next.map text = next'.map text) : ∃ b', Passes a' run' next' b' ∧ Alike b b' := by
  induction h generalizing a' run' with
  | nil =>
    obtain rfl := map_eq_nil_iff.1 hrun.symm
    exact ⟨a', .nil, ha⟩
  | @cons nesting nesting' token run next hend _ ih =>
    obtain ⟨token', run', rfl, htoken, hrun'⟩ := map_eq_cons_iff.1 hrun.symm
    have hhead : (run.head?.or next).map text = (run'.head?.or next').map text := by
      rw [map_or, map_or, hnext, ← head?_map, ← head?_map, hrun']
    have hafter := ha.after token (run.head?.or next)
    rw [after_congr htoken.symm hhead a'] at hafter
    obtain ⟨b', hpasses, hb⟩ := ih hafter hrun'.symm hnext
    refine ⟨b', .cons ?_ hpasses, hb⟩
    rw [← isEnd_congr htoken.symm, ← ha.isEnd, hend]

end Nesting

theorem Laid.eq_of_start_eq {tokens : List Token} (h : Laid sql tokens) {a b : Token}
    (ha : a ∈ tokens) (hb : b ∈ tokens) (hstart : a.start = b.start) : a = b := by
  obtain ⟨i, hi⟩ := mem_iff_getElem?.1 ha
  obtain ⟨j, hj⟩ := mem_iff_getElem?.1 hb
  obtain rfl : i = j := by rw [← h.countP_start hi, hstart, h.countP_start hj]
  exact Option.some.inj (hi.symm.trans hj)

namespace Statement

open Nesting (Passes)

/-- Tokens with the texts are a statement with its terminator, if nothing is open before them. -/
def Ends (texts : List Text) : Prop :=
  ∀ (nesting : Nesting) (run : List Token), nesting.Clear → run.map Token.text = texts →
    ∃ nesting' : Nesting, nesting'.Clear ∧
      ∀ later runs, Divided nesting' later runs → Divided nesting (run ++ later) (run :: runs)

/-- Tokens with the texts are a statement, if nothing is open before them and nothing follows. -/
def Closes (texts : List Text) : Prop :=
  ∀ (nesting : Nesting) (run : List Token), nesting.Clear → run.map Token.text = texts →
    Divided nesting run [run]

variable {texts : List Text} {nesting nesting' : Nesting} {body run : List Token} {s front t : Text}
  {quote : Option OpenQuote}

theorem Ends.closes (h : Ends texts) : Closes texts := by
  intro nesting run hclear hrun
  obtain ⟨nesting', -, hdivided⟩ := h nesting run hclear hrun
  simpa using hdivided [] [] .nil

theorem ends_of_passes {terminator : Token} (hclear : nesting.Clear)
    (h : Passes nesting body (some terminator) nesting')
    (hend : nesting'.isEnd terminator) : Ends ((body ++ [terminator]).map Token.text) := by
  intro other run hother hrun
  rw [map_append] at hrun
  obtain ⟨body', last, rfl, hbody, hlast⟩ := map_eq_append_iff.1 hrun
  obtain ⟨terminator', rfl, hterminator⟩ := map_eq_singleton_iff.1 hlast
  have hnext : (some terminator).map Token.text = (some terminator').map Token.text :=
    congrArg some hterminator.symm
  obtain ⟨other', hpasses, halike⟩ := h.congr (hclear.alike hother) hbody.symm hnext
  have hend' : other'.isEnd terminator' := by
    rw [Nesting.isEnd_congr hterminator, ← halike.isEnd, hend]
  refine ⟨other', (Nesting.isEnd_iff.1 hend').1, fun later runs hlater => ?_⟩
  rw [append_assoc]
  exact .cons hpasses hend' hlater

theorem closes_of_passes (hclear : nesting.Clear) (hne : body ≠ [])
    (h : Passes nesting body none nesting') : Closes (body.map Token.text) := by
  intro other run hother hrun
  obtain ⟨other', hpasses, -⟩ := h.congr (hclear.alike hother) hrun.symm rfl
  refine .last ?_ hpasses
  rintro rfl
  exact hne (map_eq_nil_iff.1 hrun.symm)

theorem isLone_append_singleton (hne : body ≠ []) (terminator : Token) :
    isLone (body ++ [terminator]) = false := by
  rw [Bool.eq_false_iff]
  intro hlone
  obtain ⟨token, heq, -⟩ := isLone_iff.1 hlone
  exact hne (append_eq_singleton_iff.1 heq |>.elim And.left fun h => by simp at h)

/-! ## Texts that stand on their own -/

/-- The tokens run through the text from its start to its end, and are more than a `;`. -/
structure Fills (run : List Token) (s : Text) : Prop where
  start : run.head?.map Token.start = some 0
  stop : run.getLast?.map Token.stop = some s.byteSize
  lone : isLone run = false

/-- The text is a statement, if nothing follows it. -/
def Final (s : Text) : Prop :=
  Fills (tokens s) s ∧ Closes ((tokens s).map Token.text)

/-- The text is a statement whatever follows it, and that is read on its own. -/
def Sealed (s : Text) : Prop :=
  ∃ run, Fills run s ∧ Ends (run.map Token.text) ∧
    ∀ new, tokens (s ++ new) = run ++ (Token.scanFrom s.byteSize none new).tokens

theorem Sealed.final (h : Sealed s) : Final s := by
  obtain ⟨run, hfills, hends, htokens⟩ := h
  obtain rfl : tokens s = run := by simpa [tokens_scanFrom_nil] using htokens []
  exact ⟨hfills, hends.closes⟩

/-- The texts are statements, each of which may be followed by the next one. -/
inductive Standing : List Text → Prop where
  | nil : Standing []
  | last {s : Text} : Final s → Standing [s]
  | cons {s : Text} {texts : List Text} : Sealed s → Standing texts → Standing (s :: texts)

theorem Standing.final (h : Standing texts) : ∀ s ∈ texts, Final s := by
  induction h with
  | nil => simp
  | last hfinal => simpa using hfinal
  | cons hsealed _ ih => exact forall_mem_cons.2 ⟨hsealed.final, ih⟩

theorem Fills.extentOf_moved (h : Fills run s) (k : Nat) :
    extentOf (run.map (Token.moved k)) = ⟨k, k + s.byteSize⟩ := by
  obtain ⟨first, hfirst, hstart⟩ := map_eq_some_iff.1 h.start
  obtain ⟨last, hlast, hstop⟩ := map_eq_some_iff.1 h.stop
  simp [extentOf, head?_map, getLast?_map, hfirst, hlast, Token.moved, hstart, hstop, Nat.add_comm]

/-- A run that fills a text lies there, wherever the text stands. -/
theorem Fills.slice?_moved (h : Fills run s) (front rest : Text) :
    (front ++ (s ++ rest)).slice? (extentOf (run.map (moved front.byteSize))).start
      (extentOf (run.map (moved front.byteSize))).stop = some s := by
  rw [h.extentOf_moved]
  exact slice?_append front s rest

theorem Fills.isLone_moved (h : Fills run s) (k : Nat) : isLone (run.map (moved k)) = false := by
  rw [isLone, map_text_moved]
  exact h.lone

theorem tokens_scanFrom_zero_moved (front t : Text) :
    (scanFrom front.byteSize none t).tokens = (tokens t).map (moved front.byteSize) := by
  have hmoved : (scanFrom (0 + front.byteSize) none t).tokens =
      (tokens t).map (moved front.byteSize) := tokens_scanFrom_moved _ t rfl 0
  rwa [Nat.zero_add] at hmoved

theorem Final.exists_divided (h : Final s) (front : Text) (hclear : nesting.Clear) : ∃ runs,
      Divided nesting (scanFrom front.byteSize none s).tokens runs ∧
      (∀ run ∈ runs, isLone run = false) ∧
      Forall₂ (fun run text => (front ++ s).slice? (extentOf run).start
        (extentOf run).stop = some text) runs [s] := by
  refine ⟨[(tokens s).map (moved front.byteSize)], ?_, ?_, .cons ?_ .nil⟩
  · rw [tokens_scanFrom_zero_moved]
    exact h.2 nesting _ hclear (map_text_moved _ _)
  · simpa using h.1.isLone_moved front.byteSize
  · simpa using h.1.slice?_moved front []

/-- The join of statements is divided into them, wherever it stands. -/
theorem Standing.exists_divided (h : Standing texts) (front : Text)
    (hclear : nesting.Clear) : ∃ runs, Divided nesting
        (scanFrom front.byteSize none (['\n'].intercalate texts)).tokens runs ∧
      (∀ run ∈ runs, isLone run = false) ∧
      Forall₂ (fun run text => (front ++ ['\n'].intercalate texts).slice?
        (extentOf run).start (extentOf run).stop = some text) runs texts := by
  induction h generalizing front nesting with
  | nil => exact ⟨[], by simpa [tokens_scanFrom_nil] using .nil, by simp, .nil⟩
  | last hfinal => simpa using hfinal.exists_divided front hclear
  | @cons s texts hsealed _ ih =>
    cases texts with
    | nil => simpa using hsealed.final.exists_divided front hclear
    | cons t texts =>
      obtain ⟨run, hfills, hends, htokens⟩ := hsealed
      have hjoin : ['\n'].intercalate (s :: t :: texts) =
          s ++ (['\n'] ++ ['\n'].intercalate (t :: texts)) := by simp
      rw [hjoin]
      generalize ['\n'].intercalate (t :: texts) = joined at ih ⊢
      obtain ⟨nesting', hclear', hdivides⟩ := hends nesting _ hclear
        (map_text_moved front.byteSize run)
      obtain ⟨runs, hdivided, hlone, hslices⟩ := ih (front ++ (s ++ ['\n'])) hclear'
      have hscan : (scanFrom front.byteSize none (s ++ (['\n'] ++ joined))).tokens =
          run.map (moved front.byteSize) ++
            (scanFrom (front ++ (s ++ ['\n'])).byteSize none joined).tokens := by
        have hbreak : Blank ['\n'] := by simpa [Blank] using (by decide : isBlank '\n')
        have hplace : s.byteSize + front.byteSize + byteSize ['\n'] =
            (front ++ (s ++ ['\n'])).byteSize := by
          rw [byteSize_append, byteSize_append, Nat.add_comm s.byteSize, Nat.add_assoc]
        rw [tokens_scanFrom_zero_moved, htokens, map_append,
          ← tokens_scanFrom_moved _ _ rfl, Layout.tokens_scanFrom_blank _ hbreak, hplace]
      rw [hscan]
      refine ⟨_, hdivides _ _ hdivided, ?_, .cons (hfills.slice?_moved front _) ?_⟩
      · exact forall_mem_cons.2 ⟨hfills.isLone_moved _, hlone⟩
      · simpa using hslices

theorem Standing.split_join (h : Standing texts) :
    split .keep (['\n'].intercalate texts) = .ok texts := by
  obtain ⟨runs, hdivided, hlone, htexts⟩ := h.exists_divided [] Nesting.clear_default
  exact split_keep_of_divided hdivided hlone htexts

/-! ## The statements of a script -/

/-- From the first token on, if it stands outside of literals, a text is read on its own. -/
theorem exists_tail (hne : run ≠ []) (hfirst : ∀ first ∈ run.head?, first.inQuotes = false)
    (h : (Token.scanFrom front.byteSize quote t).tokens = run) :
    quote = none ∧ ∃ gap tail, t = gap ++ tail ∧
      (tokens tail).map (Token.moved (front ++ gap).byteSize) = run ∧
      (tokens tail).head?.map Token.start = some 0 := by
  obtain ⟨first, later, rfl⟩ := exists_cons_of_ne_nil hne
  obtain ⟨gap, tail, rfl, hstart, hquotes, htail⟩ := exists_scanFrom_first h
  obtain rfl : quote = none := by
    rw [hfirst first rfl] at hquotes
    exact not_isSome_iff_eq_none.1 (by rw [← hquotes]; decide)
  rw [tokens_scanFrom_zero_moved] at htail
  refine ⟨rfl, gap, tail, rfl, htail, ?_⟩
  obtain ⟨first', later', htokens, rfl, -⟩ := map_eq_cons_iff.1 htail
  rw [htokens]
  simpa [Token.moved] using hstart

/-- A statement with its terminator that begins outside of literals stands on its own, and it is
sealed unless a literal is open behind it. -/
theorem exists_sealed (hclear : nesting.Clear) {later : List Token} {terminator : Token}
    (hpasses : Passes nesting body (some terminator) nesting')
    (hend : nesting'.isEnd terminator) (hbody : body ≠ [])
    (hfirst : ∀ first ∈ (body ++ terminator :: later).head?, first.inQuotes = false)
    (h : (Token.scanFrom front.byteSize quote t).tokens = body ++ terminator :: later) :
    quote = none ∧ ∃ gap s rest quote', t = gap ++ (s ++ rest) ∧
      extentOf (body ++ [terminator]) =
        ⟨(front ++ gap).byteSize, (front ++ gap).byteSize + s.byteSize⟩ ∧
      (∀ opened ∈ quote', Text.isQuoteMark opened.mark) ∧
      later = (Token.scanFrom (front ++ (gap ++ s)).byteSize quote' rest).tokens ∧
      Final s ∧ (quote' = none → Sealed s) := by
  obtain ⟨rfl, gap, tail, rfl, hmoved, hstart⟩ := exists_tail (by simp) hfirst h
  obtain ⟨body, tokens', htokens, rfl, hback⟩ := map_eq_append_iff.1 hmoved
  obtain ⟨terminator, later, rfl, rfl, rfl⟩ := map_eq_cons_iff.1 hback
  have hsemicolon : terminator.text = [';'] := (Nesting.isEnd_iff.1 hend).2
  have hzero : (Token.scanFrom (Text.byteSize []) none tail).tokens = tokens tail := rfl
  obtain ⟨before, rest, quote', rfl, hstop, hquote', -, rfl, hread⟩ :=
    exists_scanFrom_semicolon (by simp) hsemicolon (hzero.trans htokens)
  rw [nil_append] at hstop
  have hends := ends_of_passes hclear hpasses hend
  rw [← map_singleton, ← map_append, map_text_moved] at hends
  have hne : body ≠ [] := by
    rintro rfl
    exact hbody rfl
  have hfills : Fills (body ++ [terminator]) (before ++ [';']) := by
    refine ⟨?_, by simp [hstop], ?_⟩
    · rw [htokens] at hstart
      obtain ⟨first, body, rfl⟩ := exists_cons_of_ne_nil hne
      exact hstart
    · exact isLone_append_singleton hne terminator
  have hread : ∀ new, tokens (before ++ [';'] ++ new) = body ++ [terminator] ++
      (Token.scanFrom (before ++ [';']).byteSize quote' new).tokens := by
    intro new
    rw [append_assoc, append_assoc]
    exact hread new
  have hwhole : tokens (before ++ [';']) = body ++ [terminator] := by
    simpa [tokens_scanFrom_nil] using hread []
  refine ⟨rfl, gap, before ++ [';'], rest, quote', by simp, ?_, hquote', ?_, ?_, ?_⟩
  · rw [← hfills.extentOf_moved, map_append]
    rfl
  · rw [nil_append, ← tokens_scanFrom_moved _ _ rfl, ← append_assoc,
      Text.byteSize_append (front ++ gap), Nat.add_comm]
  · rw [Final, hwhole]
    exact ⟨hfills, hends.closes⟩
  · rintro rfl
    exact ⟨_, hfills, hends, hread⟩

/-- A statement without a terminator that begins outside of literals stands on its own. -/
theorem exists_final (hclear : nesting.Clear) (hpasses : Passes nesting run none nesting')
    (hne : run ≠ []) (hfirst : ∀ first ∈ run.head?, first.inQuotes = false)
    (h : (Token.scanFrom front.byteSize quote t).tokens = run) :
    quote = none ∧ ∃ gap s rest, t = gap ++ (s ++ rest) ∧
      extentOf run = ⟨(front ++ gap).byteSize, (front ++ gap).byteSize + s.byteSize⟩ ∧ Final s := by
  obtain ⟨rfl, gap, tail, rfl, rfl, hstart⟩ := exists_tail hne hfirst h
  have hcloses := closes_of_passes hclear hne hpasses
  rw [map_text_moved] at hcloses
  have hlone := isLone_eq_false_of_passes hclear hpasses
  rw [isLone, map_text_moved] at hlone
  have hlaid := laid_tokens tail
  obtain ⟨last, hlast⟩ : ∃ last, (tokens tail).getLast? = some last := by
    rw [← ne_none_iff_exists', ne_eq, getLast?_eq_none_iff]
    intro hnil
    simp [hnil] at hstart
  -- the text ends with its last token
  obtain ⟨s, rest, rfl, hs⟩ := Text.isPlace_iff.1 (hlaid.isPlace_stop (mem_of_getLast? hlast))
  have hfront : tokens s = tokens (s ++ rest) := by
    refine tokens_scanFrom_front [] s rest none (fun token hmem => ?_)
      (.inr ⟨last, mem_of_getLast? hlast, hs.symm⟩)
    have hwithin := (within_extentOf hlaid hmem).2
    rw [extentOf, hlast] at hwithin
    simpa [hs] using hwithin
  have hfills : Fills (tokens s) s := by
    rw [← hfront] at hstart hlast hlone
    exact ⟨hstart, by rw [hlast, map_some, hs], hlone⟩
  refine ⟨rfl, gap, s, rest, rfl, ?_, hfills, by rwa [hfront]⟩
  rw [← hfront, hfills.extentOf_moved]

/-- The statements of a script stand on their own, if none begins in a literal. -/
theorem Divided.exists_standing (h : Divided nesting (scanFrom front.byteSize quote t).tokens runs)
    (hquote : ∀ opened ∈ quote, isQuoteMark opened.mark) (hclear : nesting.Clear)
    (hfirst : ∀ run ∈ runs, isLone run = false → ∀ first ∈ run.head?, first.inQuotes = false) :
    ∃ texts, Forall₂ (fun run text => (front ++ t).slice? (extentOf run).start
        (extentOf run).stop = some text) (runs.filter fun run => !isLone run) texts ∧
      Standing texts ∧ (quote ≠ none → texts = []) := by
  generalize htokens : (scanFrom front.byteSize quote t).tokens = tokens at h
  induction h generalizing front t quote with
  | nil => exact ⟨[], .nil, .nil, fun _ => rfl⟩
  | @last nesting nesting' run hne hpasses =>
    have hlone := isLone_eq_false_of_passes hclear hpasses
    obtain ⟨hnone, gap, s, rest, rfl, hextent, hfinal⟩ := exists_final hclear hpasses hne
      (hfirst run mem_cons_self hlone) htokens
    refine ⟨[s], ?_, .last hfinal, fun hsome => absurd hnone hsome⟩
    rw [filter_cons_of_pos (by simp [hlone])]
    refine .cons ?_ .nil
    rw [hextent, ← append_assoc]
    exact slice?_append _ _ _
  | @cons nesting nesting' body later terminator runs hpasses hend hlater ih =>
    obtain ⟨hclear', hsemicolon⟩ := Nesting.isEnd_iff.1 hend
    obtain ⟨hrun, hruns⟩ := forall_mem_cons.1 hfirst
    by_cases hbody : body = []
    · subst hbody
      obtain ⟨before, rest, quote', rfl, -, hquote', hmark, rfl, -⟩ :=
        exists_scanFrom_semicolon hquote hsemicolon htokens
      obtain ⟨texts, htexts, hstanding, hnil⟩ := ih hquote' hclear' hruns rfl
      refine ⟨texts, ?_, hstanding, fun hsome => hnil ?_⟩
      · rw [filter_cons_of_neg (by simp [isLone, hsemicolon])]
        simpa using htexts
      · rintro rfl
        exact hsome (map_eq_none_iff.1 hmark)
    · have hlone := isLone_append_singleton hbody terminator
      have hbegin : (body ++ terminator :: later).head? = (body ++ [terminator]).head? := by
        rw [head?_append, head?_append]
        rfl
      obtain ⟨hnone, gap, s, rest, quote', rfl, hextent, hquote', rfl, hfinal, hsealed⟩ :=
        exists_sealed hclear hpasses hend hbody (by rw [hbegin]; exact hrun hlone) htokens
      obtain ⟨texts, htexts, hstanding, hnil⟩ := ih hquote' hclear' hruns rfl
      refine ⟨s :: texts, ?_, ?_, fun hsome => absurd hnone hsome⟩
      · rw [filter_cons_of_pos (by simp [hlone])]
        refine .cons ?_ (by simpa using htexts)
        rw [hextent, ← append_assoc]
        exact slice?_append _ _ _
      · by_cases hopen : quote' = none
        · exact .cons (hsealed hopen) hstanding
        · rw [hnil hopen]
          exact .last hfinal

/-! ## Scripts without brackets -/

/-- Outside of brackets a token opens and closes a literal for the splitter as for the scanner. -/
theorem quote_after {nesting : Nesting} {token : Token} {mark : Option Char}
    (hbracket : nesting.inBracket = false) (hmark : nesting.quote = mark.map fun c => [c])
    (htoken : token.text ≠ ['[']) (next : Option Token) :
    (nesting.after token next).inBracket = false ∧
      (nesting.after token next).quote = (markAfter mark token).map fun c => [c] := by
  unfold Nesting.after
  rw [if_neg (by simp [hbracket]), hmark]
  cases mark with
  | some c =>
    dsimp only [map_some]
    by_cases hclose : token.text = [c]
    · simp [hclose, hbracket, markAfter]
    · simp [hclose, hbracket, hmark, markAfter]
  | none =>
    dsimp only [map_none]
    by_cases hquote : token.isQuote
    · obtain ⟨c, htext⟩ : ∃ c, token.text = [c] := by
        simp only [isQuote, Bool.or_eq_true, beq_iff_eq] at hquote
        exact hquote.elim (fun h => ⟨_, h⟩) fun h => ⟨_, h⟩
      simp [hquote, hbracket, markAfter, htext]
    · rw [if_neg hquote, if_neg (by simpa using htoken)]
      have hnone : markAfter none token = none := by simp [markAfter, hquote]
      rw [hnone]
      split
      · exact ⟨hbracket, rfl⟩
      split
      · exact ⟨hbracket, rfl⟩
      split
      · cases nesting.blocks with
        | nil => exact ⟨hbracket, hmark⟩
        | cons block outer => exact ⟨hbracket, rfl⟩
      · exact ⟨hbracket, hmark⟩

/-- Outside of brackets the splitter knows of the same literals as the scanner. -/
theorem quote_of_passes {nesting nesting' : Nesting} {run : List Token} {next : Option Token}
    (h : Passes nesting run next nesting') {mark : Option Char}
    (hbracket : nesting.inBracket = false)
    (hmark : nesting.quote = mark.map fun c => [c]) (hrun : ∀ token ∈ run, token.text ≠ ['[']) :
    nesting'.quote = (run.foldl markAfter mark).map fun c => [c] := by
  induction h generalizing mark with
  | nil => exact hmark
  | cons _ _ ih =>
    obtain ⟨htoken, hrun⟩ := forall_mem_cons.1 hrun
    obtain ⟨hbracket', hmark'⟩ := quote_after hbracket hmark htoken _
    exact ih hbracket' hmark' hrun

/-- Without brackets no statement begins in a literal. -/
theorem Divided.begins {nesting : Nesting} {tokens : List Token}
    (h : Divided nesting tokens runs) (hclear : nesting.Clear) (hflagged : Flagged none tokens)
    (hbracket : ∀ token ∈ tokens, token.text ≠ ['[']) :
    ∀ run ∈ runs, ∀ first ∈ run.head?, first.inQuotes = false := by
  have hfirst : ∀ (run later : List Token), Flagged none (run ++ later) →
      ∀ first ∈ run.head?, first.inQuotes = false := by
    intro run later hrun first hmem
    obtain ⟨rest, rfl⟩ := head?_eq_some_iff.1 hmem
    exact hrun.1
  induction h with
  | nil => simp
  | last hne _ => simpa using hfirst _ [] (by simpa using hflagged)
  | @cons nesting nesting' body later terminator runs hpasses hend _ ih =>
    obtain ⟨hclear', hsemicolon⟩ := Nesting.isEnd_iff.1 hend
    obtain ⟨hbody, hlater⟩ := forall_mem_append.1 hbracket
    have hquote : nesting'.quote = (body.foldl markAfter none).map fun c => [c] :=
      quote_of_passes hpasses hclear.inBracket hclear.quote hbody
    rw [hclear'.quote, eq_comm, map_eq_none_iff] at hquote
    have hrest := hflagged.of_append
    rw [hquote] at hrest
    have hafter : markAfter none terminator = none := by
      simp [markAfter, isQuote, hsemicolon]
    refine forall_mem_cons.2 ⟨hfirst _ later (by simpa using hflagged), ?_⟩
    exact ih hclear' (hafter ▸ hrest.2) fun token hmem => hlater token (mem_cons_of_mem _ hmem)

/-- No statement of the script begins at a token in a literal. -/
def BeginOutside (sql : Text) : Prop :=
  ∀ statement ∈ all sql, ∀ token ∈ tokens sql, token.start = statement.start →
    token.inQuotes = false

/-- The statements begin at the first tokens of the runs that are more than a `;`. -/
theorem Divided.map_start
    (h : Divided {} (tokens sql) runs) :
    ((runs.filter fun run => !isLone run).map fun run => run.head?.map Token.start) =
      (all sql).map fun statement => some statement.start := by
  have hcovers := h.covers Nesting.clear_default (laid_tokens sql) none
  rw [← forall₂_eq_eq_eq, forall₂_map_left_iff, forall₂_map_right_iff]
  exact hcovers.imp fun _ _ h => h.start

theorem Divided.beginOutside_iff
    (h : Divided {} (tokens sql) runs) : BeginOutside sql ↔
      ∀ run ∈ runs, isLone run = false → ∀ first ∈ run.head?, first.inQuotes = false := by
  have hmem : ∀ run ∈ runs, ∀ first ∈ run.head?, first ∈ tokens sql := by
    intro run hrun first hfirst
    rw [← h.flatten_eq]
    exact mem_flatten.2 ⟨run, hrun, mem_of_head? hfirst⟩
  constructor
  · intro hbegin run hrun hlone first hfirst
    have hstart : some first.start ∈ (all sql).map fun statement => some statement.start := by
      rw [← h.map_start]
      refine List.mem_map.2 ⟨run, mem_filter.2 ⟨hrun, by simp [hlone]⟩, ?_⟩
      rw [hfirst, map_some]
    obtain ⟨statement, hstatement, heq⟩ := List.mem_map.1 hstart
    exact hbegin statement hstatement first (hmem run hrun first hfirst) (Option.some.inj heq).symm
  · intro hruns statement hstatement token htoken hstart
    have hstart' : some statement.start ∈
        (runs.filter fun run => !isLone run).map fun run => run.head?.map Token.start := by
      rw [h.map_start]
      exact List.mem_map.2 ⟨statement, hstatement, rfl⟩
    obtain ⟨run, hrun, heq⟩ := List.mem_map.1 hstart'
    obtain ⟨hrun, hlone⟩ := mem_filter.1 hrun
    obtain ⟨first, hfirst, heq⟩ := map_eq_some_iff.1 heq
    obtain rfl : token = first := (laid_tokens sql).eq_of_start_eq htoken
      (hmem run hrun first hfirst) (hstart.trans heq.symm)
    exact hruns run hrun (by simpa using hlone) token hfirst

/-- The statements of a script split again. If none of them begins in a literal, as it is in every
script without an opening bracket, then their join by line breaks is split into the same ones, and
each of them is split into itself. -/
theorem split_intercalate (sql : Text) : ('[' ∉ sql → BeginOutside sql) ∧
    (BeginOutside sql → ∃ statements, split .keep sql = .ok statements ∧
      split .keep (['\n'].intercalate statements) = .ok statements ∧
      ∀ s ∈ statements, split .keep s = .ok [s]) := by
  obtain ⟨runs, hruns⟩ := exists_divided {} (tokens sql)
  rw [hruns.beginOutside_iff]
  constructor
  · intro hbracket run hrun _
    refine hruns.begins Nesting.clear_default (flagged_tokens sql) (fun token hmem htext => ?_) run
      hrun
    have hslice := (laid_tokens sql).slice token hmem
    rw [htext] at hslice
    obtain ⟨a, b, htext, -⟩ := Text.slice?_eq_some_iff.1 hslice
    exact hbracket (by simp [htext])
  · intro hfirst
    have hzero : Divided {} (Token.scanFrom (Text.byteSize []) none sql).tokens runs := hruns
    obtain ⟨texts, hslices, hstanding, -⟩ :=
      hzero.exists_standing (by simp) Nesting.clear_default hfirst
    refine ⟨texts, split_keep_of_filter hruns hslices, hstanding.split_join, fun s hs => ?_⟩
    simpa using (Standing.last (hstanding.final s hs)).split_join

/-- A script with quote marks in brackets, a comment and a stray `;` between statements, a block
with an `END IF`, a hint, and a literal that is not closed. -/
def sample : Text :=
  "a [b''c]; -- x\n;BEGIN y; END IF END; --HINT 'd".toList

theorem split_intercalate_sample : BeginOutside sample ∧
    ∃ statements, split .keep sample = .ok statements ∧
      split .keep (['\n'].intercalate statements) = .ok statements ∧
      ∀ s ∈ statements, split .keep s = .ok [s] := by
  have hbegin : BeginOutside sample := by
    unfold BeginOutside
    decide +kernel
  exact ⟨hbegin, (split_intercalate sample).2 hbegin⟩

end Statement

end SqlScript
