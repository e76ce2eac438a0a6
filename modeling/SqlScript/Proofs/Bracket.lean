import SqlScript.Proofs.Division
import SqlScript.Proofs.Stretch

/-!
# Bracketed identifiers are opaque

A bracketed identifier may hold anything but its closing bracket : whatever stands in it, the script
falls into the same statements, and only the one with the brackets differs, by what stands between
them (`Statement.split_bracketed`).

That holds as far as the scanner takes part, since it knows nothing of brackets. Both closing
brackets have to be read as tokens; one that stands in a comment is not, and the statement then goes
on (`Statement.split_bracketed_dashes`). And what follows has to be read in the same way, so that a
quote mark in the brackets, which opens a literal for the scanner, may matter to the comments after
it and to nothing else.

The tokens before the opening bracket, and those after the closing one up to their places, are the
same in both scripts, by `exists_cuts_of_start` and `Token.forall₂_shifted`. The splitter
passes over what stands between the brackets (`Nesting.passes_brackets`) and goes on in the same
state, so the statements it collects differ by the shift only (`Statement.collect_shifted`).
-/

namespace SqlScript

open List Option Text Token

variable {done : List Statement} {front inside : List Token} {b : Statement} {sql x : Text}
  {closing opening : Token}

/-! ## Trimming behind what is replaced -/

namespace Text

theorem trimEnd_prefix (t : Text) : trimEnd t <+: t := by
  obtain ⟨gap, -, htext⟩ := exists_append_trimEnd t
  exact ⟨gap, htext.symm⟩

end Text

/-! ## What the splitter sees of a token -/

namespace Nesting

/-- What surrounds the text after the run, when `next` follows it. -/
def through (nesting : Nesting) : List Token → Option Token → Nesting
  | [], _ => nesting
  | token :: run, next => (nesting.after token (run.head?.or next)).through run next

/-- The splitter looks at the texts of tokens only. -/
theorem after_congr {token token' : Token} {next next' : Option Token}
    (h : token.text = token'.text) (hnext : next.map text = next'.map text)
    (nesting : Nesting) : nesting.after token next = nesting.after token' next' := by
  have hif : next.any (·.is "if".toList) = next'.any (·.is "if".toList) := by
    have hany : ∀ o : Option Token, o.any (·.is "if".toList) =
        (o.map text).any (·.eqFolded "if".toList) := by
      intro o
      cases o <;> rfl
    rw [hany, hany, hnext]
  have hquote : token.isQuote = token'.isQuote := by rw [isQuote, h, isQuote]
  have his : ∀ word, token.is word = token'.is word := fun word => by rw [is, h, is]
  unfold after
  rw [h, hquote, his, his, his, hif]

theorem isEnd_congr {token token' : Token} (h : token.text = token'.text) (nesting : Nesting) :
    nesting.isEnd token = nesting.isEnd token' := by
  simp only [isEnd, h]

/-- What stands between two tokens is passed over, if the first leads to a state that only the
second one leaves, and in which no token ends a statement. -/
theorem passes_enclosed {outer : Nesting} (inner : Nesting) (hopening : outer.isEnd opening = false)
    (hopen : ∀ next, outer.after opening next = inner) (hend : ∀ token, inner.isEnd token = false)
    (hstay : ∀ token ∈ inside, ∀ next, inner.after token next = inner)
    (hclose : ∀ next, inner.after closing next = outer) (next : Option Token) :
    Passes outer (opening :: (inside ++ [closing])) next outer := by
  refine .cons hopening ?_
  rw [hopen]
  induction inside with
  | nil =>
    refine .cons (hend closing) ?_
    rw [hclose]
    exact .nil
  | cons token inside ih =>
    rw [forall_mem_cons] at hstay
    refine .cons (hend token) ?_
    rw [hstay.1]
    exact ih hstay.2

/-- A bracketed identifier is passed over, whatever stands in it. -/
theorem passes_brackets {nesting : Nesting} (hplain : nesting.Plain)
    (hopening : opening.text = ['['])
    (hinside : ∀ token ∈ inside, token.text ≠ [']']) (hclosing : closing.text = [']'])
    (next : Option Token) : Passes nesting (opening :: (inside ++ [closing])) next nesting := by
  refine passes_enclosed { nesting with inBracket := true } ?_ ?_ ?_ ?_ ?_ next
  · simp [isEnd, hopening]
  · intro next
    simp [after, hplain.inBracket, hplain.quote, isQuote, hopening]
  · simp [isEnd]
  · intro token hmem next
    simp [after, hinside token hmem]
  · intro next
    rw [hplain.eq]
    simp [after, hclosing]

end Nesting

namespace Statement

/-! ## Statements before a token -/

/-- A token starts a statement or goes on with one. -/
theorem collect_some_getD (nesting : Nesting) (start : Option Nat) (previous : Option Token)
    (token : Token) (later : List Token) :
    collect nesting start previous (token :: later) =
      collect nesting (some (start.getD token.start)) previous (token :: later) := by
  rw [collect, collect, getD_some]

/-- The statements that end before a token do not depend on what follows it. -/
theorem exists_collect_front (run : List Token) (next : Token) (nesting : Nesting)
    (start : Option Nat) (previous : Option Token) {bound : Nat}
    (hrun : ∀ token ∈ run, token.start ≤ bound ∧ token.stop ≤ bound)
    (hstart : ∀ first ∈ start, first ≤ bound) : ∃ done start' previous',
      (∀ statement ∈ done, statement.stop ≤ bound ∧
        ∀ offset ∈ statement.terminator, offset ≤ bound) ∧
      (∀ first ∈ start', first ≤ bound) ∧
      ∀ later, later.head? = some next → collect nesting start previous (run ++ later) =
        done ++ collect (nesting.through run (some next)) start' previous' later := by
  induction run generalizing nesting start previous with
  | nil => exact ⟨[], start, previous, by simp, hstart, fun later _ => rfl⟩
  | cons token run ih =>
    obtain ⟨⟨htoken, hstop⟩, hrun⟩ := forall_mem_cons.1 hrun
    have hhead : ∀ later : List Token, later.head? = some next →
        (run ++ later).head? = run.head?.or (some next) := by
      intro later hlater
      rw [head?_append, hlater]
    cases hend : nesting.isEnd token with
    | false =>
      have hfirst : ∀ first ∈ some (start.getD token.start), first ≤ bound := by
        cases start with
        | none => simpa using htoken
        | some first => simpa using hstart
      obtain ⟨done, start', previous', hdone, hstart', hcollect⟩ :=
        ih (nesting.after token (run.head?.or (some next))) (some (start.getD token.start))
          (some token) hrun hfirst
      refine ⟨done, start', previous', hdone, hstart', fun later hlater => ?_⟩
      rw [cons_append, collect, hend, hhead later hlater]
      exact hcollect later hlater
    | true =>
      obtain ⟨done, start', previous', hdone, hstart', hcollect⟩ :=
        ih (nesting.after token (run.head?.or (some next))) none (some token) hrun (by simp)
      have hlater : ∀ later : List Token, later.head? = some next →
          collect (nesting.after token (run ++ later).head?) none (some token) (run ++ later) =
            done ++
              collect (nesting.through (token :: run) (some next)) start' previous' later := by
        intro later hlater
        rw [hhead later hlater]
        exact hcollect later hlater
      by_cases hlt : start.getD token.start < token.start
      · let statement : Statement := ⟨start.getD token.start, token.stop, some token.start,
          previous.any (·.is "end".toList) && nesting.lastClosed == some .compound⟩
        have hstatement : statement.stop ≤ bound ∧
            ∀ offset ∈ statement.terminator, offset ≤ bound :=
          ⟨hstop, by simpa [statement] using htoken⟩
        refine ⟨statement :: done, start', previous', forall_mem_cons.2 ⟨hstatement, hdone⟩,
          hstart', fun later hhead' => ?_⟩
        rw [cons_append, collect, if_pos hend, if_pos hlt, hlater later hhead', cons_append]
      · refine ⟨done, start', previous', hdone, hstart', fun later hhead' => ?_⟩
        rw [cons_append, collect, if_pos hend, if_neg hlt, hlater later hhead']

/-! ## Statements after a token -/

/-- The statements end equally far from the offsets `k` and `k'`. -/
structure SameEnd (k k' : Nat) (a b : Statement) : Prop where
  le : k ≤ a.stop
  stop : a.stop + k' = b.stop + k
  terminator : a.terminator = none ∧ b.terminator = none ∨ ∃ offset offset',
    a.terminator = some offset ∧ b.terminator = some offset' ∧ k ≤ offset ∧
      offset + k' = offset' + k
  endsBlock : a.endsBlock = b.endsBlock

/-- The statements lie equally far from the offsets `k` and `k'`. -/
structure Shifted (k k' : Nat) (a b : Statement) : Prop extends SameEnd k k' a b where
  le_start : k ≤ a.start
  start : a.start + k' = b.start + k

/-- From tokens that are shifted the same statements are collected, and those are shifted too; a
statement that was begun before them keeps its start. -/
theorem collect_shifted {k k' : Nat} {run run' : List Token}
    (h : List.Forall₂ (Token.Shifted k k') run run')
    (hrun : run.Pairwise fun a b => a.start < b.start)
    (hrun' : run'.Pairwise fun a b => a.start < b.start) (nesting : Nesting) :
    (∀ previous previous', List.Forall₂ (Shifted k k') (collect nesting none previous run)
      (collect nesting none previous' run')) ∧
    ∀ first first' last last', last.text = last'.text → k ≤ last.stop →
      last.stop + k' = last'.stop + k → (∀ token ∈ run, first < token.start) →
      (∀ token ∈ run', first' < token.start) → ∃ begun begun' rest rest',
        collect nesting (some first) (some last) run = begun :: rest ∧
        collect nesting (some first') (some last') run' = begun' :: rest' ∧
        begun.start = first ∧ begun'.start = first' ∧ SameEnd k k' begun begun' ∧
        List.Forall₂ (Shifted k k') rest rest' := by
  induction h generalizing nesting with
  | nil =>
    refine ⟨fun _ _ => .nil, ?_⟩
    intro first first' last last' _ hle hstop _ _
    exact ⟨_, _, [], [], rfl, rfl, rfl, rfl, ⟨hle, hstop, .inl ⟨rfl, rfl⟩, rfl⟩, .nil⟩
  | @cons token token' run run' htoken hlater ih =>
    obtain ⟨hfirst, hrun⟩ := pairwise_cons.1 hrun
    obtain ⟨hfirst', hrun'⟩ := pairwise_cons.1 hrun'
    have hnext : run.head?.map Token.text = run'.head?.map Token.text := by
      cases hlater with
      | nil => rfl
      | cons h _ => exact congrArg some h.text
    have hafter := Nesting.after_congr htoken.text hnext nesting
    have hend := Nesting.isEnd_congr htoken.text nesting
    have hle := htoken.le
    have hle' := htoken.start_le
    have hstop := htoken.stop
    have hstart := htoken.start
    obtain ⟨hnone, hsome⟩ := ih hrun hrun' (nesting.after token run.head?)
    constructor
    · intro previous previous'
      rw [collect, collect, ← hafter, ← hend]
      dsimp only
      split
      · rw [if_neg (by simp), if_neg (by simp)]
        exact hnone _ _
      · obtain ⟨begun, begun', rest, rest', hcollect, hcollect', hbegin, hbegin', hbegun, hrest⟩ :=
          hsome token.start token'.start token token' htoken.text (by omega) hstop hfirst hfirst'
        rw [getD_none, getD_none, hcollect, hcollect']
        exact .cons ⟨hbegun, by omega, by omega⟩ hrest
    · intro first first' last last' htext _ _ hbefore hbefore'
      obtain ⟨hlt, hbefore⟩ := forall_mem_cons.1 hbefore
      obtain ⟨hlt', hbefore'⟩ := forall_mem_cons.1 hbefore'
      rw [collect, collect, ← hafter, ← hend]
      dsimp only
      split
      · rw [getD_some, getD_some, if_pos hlt, if_pos hlt']
        refine ⟨_, _, _, _, rfl, rfl, rfl, rfl, ⟨by simp only; omega, hstop, ?_, ?_⟩, hnone _ _⟩
        · exact .inr ⟨_, _, rfl, rfl, by omega, hstart⟩
        · simp only [any_some, Token.is, htext]
      · exact hsome first first' token token' htoken.text (by omega) hstop hbefore hbefore'

/-! ## Texts of statements -/

/-- Statements that end alike are both cut through their ends or both lose their terminators. -/
theorem SameEnd.text_cases {k k' : Nat} {a : Statement} (h : SameEnd k k' a b)
    (policy : TerminatorPolicy) : ∃ stop stop', k ≤ stop ∧ stop + k' = stop' + k ∧
      ((∀ sql, a.text policy sql = sql.slice a.start stop) ∧
        (∀ sql, b.text policy sql = sql.slice b.start stop') ∨
      (∀ sql, a.text policy sql = trimEnd <$> sql.slice a.start stop) ∧
        ∀ sql, b.text policy sql = trimEnd <$> sql.slice b.start stop') := by
  by_cases hshort : policy = .blockOnly ∧ a.terminator ≠ none ∧ a.endsBlock = false
  · obtain ⟨rfl, hterminator, hblock⟩ := hshort
    have hblock' := h.endsBlock.symm.trans hblock
    obtain ⟨offset, offset', ha, hb, hle, hoffset⟩ := h.terminator.resolve_left
      fun hnone => hterminator hnone.1
    refine ⟨offset, offset', hle, hoffset, .inr ⟨fun sql => ?_, fun sql => ?_⟩⟩
    · simp [text, ha, hblock]
    · simp [text, hb, hblock']
  · have hwhole : ∀ statement : Statement,
        (policy = .blockOnly → statement.terminator = none ∨ statement.endsBlock) →
        ∀ sql, statement.text policy sql = sql.slice statement.start statement.stop := by
      intro statement hkeeps sql
      cases policy with
      | keep => rfl
      | blockOnly => rw [text_blockOnly (hkeeps rfl)]; rfl
    refine ⟨a.stop, b.stop, h.le, h.stop, .inl ⟨hwhole a fun hpolicy => ?_, hwhole b ?_⟩⟩
    · by_contra hneither
      rw [not_or, Bool.not_eq_true] at hneither
      exact hshort ⟨hpolicy, hneither⟩
    · intro hpolicy
      by_contra hneither
      rw [not_or, Bool.not_eq_true] at hneither
      obtain ⟨hterminator, hblock⟩ := hneither
      refine hshort ⟨hpolicy, fun hnone => ?_, h.endsBlock.trans hblock⟩
      obtain ⟨-, hb⟩ | ⟨_, _, ha, -⟩ := h.terminator
      · exact hterminator hb
      · simp [ha] at hnone

/-- A statement of the front part of a script has its text there. -/
theorem text_append_left {statement : Statement} {p : Text} (hstop : statement.stop ≤ p.byteSize)
    (hterminator : ∀ offset ∈ statement.terminator, offset ≤ p.byteSize)
    (policy : TerminatorPolicy) (x x' : Text) :
    statement.text policy (p ++ x) = statement.text policy (p ++ x') := by
  have hslice : ∀ start stop, stop ≤ p.byteSize →
      (p ++ x).slice start stop = (p ++ x').slice start stop := by
    intro start stop hle
    rw [slice, slice, slice?_append_left p x hle, slice?_append_left p x' hle]
  unfold text
  rw [hslice _ _ hstop]
  split
  · rename_i offset hoffset
    rw [hslice _ _ (hterminator offset hoffset)]
  · rfl

/-- A statement behind the front part of a script keeps its text when the front is replaced. -/
theorem Shifted.text_eq_ok {q q' s m : Text} {a : Statement}
    (h : Shifted q.byteSize q'.byteSize a b) (policy : TerminatorPolicy)
    (hm : a.text policy (q ++ s) = .ok m) : b.text policy (q' ++ s) = .ok m := by
  obtain ⟨stop, stop', hle, hstop, ⟨ha, hb⟩ | ⟨ha, hb⟩⟩ := h.text_cases policy
  · rw [ha, slice_eq_ok_iff] at hm
    rw [hb, slice_eq_ok_iff]
    exact slice?_shifted hm h.le_start h.start hstop
  · rw [ha] at hm
    obtain ⟨body, hbody, htrim⟩ := exists_of_bind_eq_ok hm
    have hbody' := slice?_shifted (slice_eq_ok_iff.1 hbody) h.le_start h.start hstop
    rw [hb, slice_eq_ok_iff.2 hbody', ← htrim]
    rfl

/-- A statement that holds a middle part which ends in no blank keeps the text around that part when
it is replaced. -/
theorem SameEnd.exists_text {p x' s m : Text} {c : Char} {a : Statement}
    (h : SameEnd (p ++ (x ++ [c])).byteSize (p ++ (x' ++ [c])).byteSize a b)
    (hc : isBlank c = false) (hstart : a.start = b.start) (hle : a.start ≤ p.byteSize)
    (policy : TerminatorPolicy) (hm : a.text policy (p ++ (x ++ [c] ++ s)) = .ok m) :
    ∃ lead trail, lead <:+ p ∧ trail <+: s ∧ m = lead ++ (x ++ c :: trail) ∧
      b.text policy (p ++ (x' ++ [c] ++ s)) = .ok (lead ++ (x' ++ c :: trail)) := by
  obtain ⟨stop, stop', hstop, hshift, ⟨ha, hb⟩ | ⟨ha, hb⟩⟩ := h.text_cases policy
  · rw [ha, slice_eq_ok_iff] at hm
    obtain ⟨lead, trail, hlead, htrail, rfl, -, -, hother⟩ := slice?_around hm hle hstop
    refine ⟨lead, trail, hlead, htrail, by simp, ?_⟩
    rw [hb, slice_eq_ok_iff, ← hstart, hother _ _ hshift]
    simp
  · rw [ha] at hm
    obtain ⟨body, hbody, htrim⟩ := exists_of_bind_eq_ok hm
    obtain ⟨lead, trail, hlead, htrail, rfl, -, -, hother⟩ :=
      slice?_around (slice_eq_ok_iff.1 hbody) hle hstop
    have hkept : ∀ y : Text, trimEnd (lead ++ (y ++ [c] ++ trail)) =
        lead ++ (y ++ c :: trimEnd trail) := by
      intro y
      rw [append_assoc, ← append_assoc, singleton_append, trimEnd_append_cons _ hc, append_assoc]
    obtain rfl : trimEnd (lead ++ (x ++ [c] ++ trail)) = m := Except.ok.inj htrim
    have hfront := trimEnd_prefix trail
    refine ⟨lead, trimEnd trail, hlead, hfront.trans htrail, hkept x, ?_⟩
    rw [hb, ← hstart, slice_eq_ok_iff.2 (hother _ _ hshift), ← hkept x']
    rfl

/-- Statements that have the same texts in two scripts are cut into the same texts. -/
theorem mapM_text_eq_ok {policy : TerminatorPolicy} {sql' : Text} {l l' : List Statement}
    (h : Forall₂ (fun a b => ∀ m, a.text policy sql = .ok m → b.text policy sql' = .ok m) l l')
    {texts : List Text} (htexts : l.mapM (text policy sql) = .ok texts) :
    l'.mapM (text policy sql') = .ok texts := by
  induction h generalizing texts with
  | nil => exact htexts
  | cons hab _ ih =>
    rw [mapM_cons] at htexts ⊢
    obtain ⟨m, hm, htexts⟩ := exists_of_bind_eq_ok htexts
    obtain ⟨rest, hrest, htexts⟩ := exists_of_bind_eq_ok htexts
    rw [hab m hm, ih hrest]
    exact htexts

theorem exists_split_eq_ok (policy : TerminatorPolicy) (sql : Text) :
    ∃ texts, split policy sql = .ok texts := by
  obtain ⟨runs, hruns⟩ := exists_divided {} (tokens sql)
  obtain ⟨cuts, -, hkeep, hshort, -⟩ := hruns.exists_cuts
  cases policy with
  | keep => exact ⟨_, hkeep⟩
  | blockOnly => exact ⟨_, hshort⟩

end Statement

/-! ## The tokens around a bracketed identifier -/

/-- A token starts at the offset. Before it the scanner is in the literal with the mark, if in any,
and the splitter in the nesting. -/
def MetIn (sql : Text) (offset : Nat) (mark : Option Char) (nesting : Nesting) : Prop :=
  ∃ front token back, tokens sql = front ++ token :: back ∧ token.start = offset ∧
    front.foldl markAfter none = mark ∧ Nesting.through {} front (some token) = nesting

/-- A list of laid tokens is cut in two at an offset in one way. -/
theorem Laid.append_cons_inj {front' back back' : List Token} {a b : Token}
    (hlaid : Laid sql (front ++ a :: back)) (h : front ++ a :: back = front' ++ b :: back')
    (hstart : a.start = b.start) : front = front' ∧ a = b ∧ back = back' := by
  have ha : (front ++ a :: back)[front.length]? = some a := by simp
  have hb : (front ++ a :: back)[front'.length]? = some b := by
    rw [h]
    simp
  have hlength : front.length = front'.length := by
    rw [← hlaid.countP_start ha, hstart, hlaid.countP_start hb]
  obtain ⟨rfl, htail⟩ := append_inj h hlength
  cases htail
  exact ⟨rfl, rfl, rfl⟩

theorem Laid.le_of_mem_front {back : List Token} {a b : Token}
    (h : Laid sql (front ++ b :: back)) (ha : a ∈ front) :
    a.start ≤ b.start ∧ a.stop ≤ b.start := by
  have hstop := (pairwise_append.1 h.ordered).2.2 a ha b mem_cons_self
  have hlt := h.start_lt_stop (mem_append_left _ ha)
  omega

theorem Laid.pairwise_start {tokens : List Token} (h : Laid sql tokens) :
    tokens.Pairwise fun a b => a.start < b.start := by
  refine h.ordered.imp_of_mem fun {a b} ha _ hle => ?_
  have hlt := h.start_lt_stop ha
  omega

section Bracketed

variable {p a s : Text} {mark : Option Char} {nesting : Nesting}

/-- The tokens before an opening bracket are the same whatever follows it. -/
theorem MetIn.exists_opening (h : MetIn (p ++ '[' :: x) p.byteSize none nesting) :
    ∃ front opening, opening.text = ['['] ∧ opening.start = p.byteSize ∧
      (∀ token ∈ front, token.start ≤ p.byteSize ∧ token.stop ≤ p.byteSize) ∧
      front.foldl markAfter none = none ∧
      Nesting.through {} front (some opening) = nesting ∧
      ∀ x, tokens (p ++ '[' :: x) =
        front ++ opening :: (scanFrom (p ++ ['[']).byteSize none x).tokens := by
  obtain ⟨front, token, back, htokens, hstart, hmark, hnesting⟩ := h
  have hlaid := laid_tokens (p ++ '[' :: x)
  rw [htokens] at hlaid
  obtain ⟨pieces, mark, hcuts, rfl, -, hscan⟩ := exists_cuts_of_tokens htokens hstart
  obtain rfl : mark = none := (hcuts.foldl_markAfter rfl (by simp) _).symm.trans hmark
  have hplain : ∀ x, (scanFrom p.byteSize none ('[' :: x)).tokens =
      ⟨p.byteSize, p.byteSize + 1, ['['], false⟩ ::
        (scanFrom (p ++ ['[']).byteSize none x).tokens := by
    intro x
    rw [byteSize_append]
    exact tokens_scanFrom_plain (by decide) (by decide) (by decide) (by decide) (by decide)
      _ none (by simp) x
  rw [map_eq_none_iff.1 (hcuts.map_quoteFrom rfl _), hplain] at hscan
  cases hscan
  refine ⟨_, _, rfl, rfl, fun token hfront => ?_, hmark, hnesting, fun y => ?_⟩
  · exact hlaid.le_of_mem_front hfront
  · rw [(hcuts.of_delimits (divides_openBracket.delimits divides_openBracket x y)).tokens_append,
      hplain]

/-- The tokens of what stands between the brackets, and of what follows the closing one. -/
theorem MetIn.exists_closing (ha : ']' ∉ a)
    (h : MetIn (p ++ '[' :: (a ++ ']' :: s)) (p ++ '[' :: a).byteSize mark nesting)
    (hopening : opening.text = ['[']) (hstart : opening.start = p.byteSize)
    (hfront : ∀ token ∈ front, token.start ≤ p.byteSize ∧ token.stop ≤ p.byteSize)
    (hmark : front.foldl markAfter none = none)
    (htokens : tokens (p ++ '[' :: (a ++ ']' :: s)) =
      front ++ opening :: (scanFrom (p ++ ['[']).byteSize none (a ++ ']' :: s)).tokens) :
    ∃ inside closing quote, (∀ token ∈ inside, token.text ≠ [']']) ∧ closing.text = [']'] ∧
      closing.stop = (p ++ '[' :: (a ++ [']'])).byteSize ∧
      quote.map OpenQuote.mark = mark ∧
      (scanFrom (p ++ ['[']).byteSize none (a ++ ']' :: s)).tokens = inside ++ closing ::
        (scanFrom (p ++ '[' :: (a ++ [']'])).byteSize quote s).tokens := by
  obtain ⟨front', token, back, htokens', htoken, rfl, -⟩ := h
  have hlaid := laid_tokens (p ++ '[' :: (a ++ ']' :: s))
  have hplace : ∀ t : Text, (p ++ '[' :: t).byteSize = p.byteSize + 1 + t.byteSize := by
    intro t
    simp [Nat.add_assoc, show '['.utf8Size = 1 from rfl]
  have hmem : token ∈ (scanFrom (p ++ ['[']).byteSize none (a ++ ']' :: s)).tokens := by
    have hmem : token ∈ tokens (p ++ '[' :: (a ++ ']' :: s)) := by simp [htokens']
    rw [hplace] at htoken
    rw [htokens, mem_append, mem_cons] at hmem
    rcases hmem with hmem | rfl | hmem
    · have hle := (hfront token hmem).1
      omega
    · omega
    · exact hmem
  obtain ⟨inside, later, hinside⟩ := append_of_mem hmem
  obtain ⟨pieces, mark, hcuts, rfl, hscan⟩ := exists_cuts_of_start hinside (by simpa using htoken)
  have hstop : (p ++ ['['] ++ a).byteSize + ']'.utf8Size = (p ++ '[' :: (a ++ [']'])).byteSize := by
    simp [Nat.add_assoc]
  rw [tokens_scanFrom_plain (by decide) (by decide) (by decide) (by decide) (by decide) _ _
    (Piece.isQuoteMark_quoteFrom (by simp) _ _), hstop] at hscan
  cases hscan
  refine ⟨_, _, _, fun token hmem htext => ?_, rfl, rfl, ?_, hinside⟩
  · refine ha (hcuts.subset_of_mem_texts [']'] ?_ mem_cons_self)
    rw [← Piece.map_text_tokensFrom pieces (p ++ ['[']).byteSize none, ← htext]
    exact mem_map_of_mem hmem
  · -- the tokens before the closing bracket are known from both sides
    rw [htokens'] at hlaid
    rw [htokens', hinside] at htokens
    obtain ⟨rfl, -, -⟩ := hlaid.append_cons_inj
      (htokens.trans (append_assoc front (opening :: _) _).symm) rfl
    have hsame : markAfter none opening = none := by
      simp [markAfter, isQuote, hopening]
    rw [foldl_append, hmark, foldl_cons, hsame, hcuts.map_quoteFrom rfl]
    exact (hcuts.foldl_markAfter rfl (by simp) _).symm

end Bracketed

namespace Statement

/-- The statements of a script with a part that is passed over : those that end before it, and those
that are collected behind it, the first of which begins before it. -/
theorem all_enclosed {later : List Token} {nesting : Nesting}
    (hpasses : ∀ next, nesting.Passes (opening :: (inside ++ [closing])) next nesting)
    (htokens : tokens sql = front ++ opening :: (inside ++ closing :: later))
    {start : Option Nat} {previous : Option Token}
    (hfront : ∀ rest : List Token, rest.head? = some opening →
      collect {} none none (front ++ rest) = done ++ collect nesting start previous rest) :
    all sql = done ++ collect nesting (some (start.getD opening.start)) (some closing) later := by
  rw [all, htokens, hfront _ rfl, collect_some_getD]
  have hsplit : opening :: (inside ++ closing :: later) =
      opening :: (inside ++ [closing]) ++ later := by simp
  rw [hsplit, collect_append (hpasses later.head?), ← cons_append, getLast?_concat, some_or]

/-- The statements of a script with a bracketed identifier : those that end before it, and those
that are collected behind it, the first of which begins before it. -/
theorem all_bracketed {later : List Token}
    {nesting : Nesting} (hplain : nesting.Plain) (hopening : opening.text = ['['])
    (hinside : ∀ token ∈ inside, token.text ≠ [']']) (hclosing : closing.text = [']'])
    (htokens : tokens sql = front ++ opening :: (inside ++ closing :: later))
    {start : Option Nat} {previous : Option Token}
    (hfront : ∀ rest : List Token, rest.head? = some opening →
      collect {} none none (front ++ rest) = done ++ collect nesting start previous rest) :
    all sql = done ++ collect nesting (some (start.getD opening.start)) (some closing) later :=
  all_enclosed (Nesting.passes_brackets hplain hopening hinside hclosing) htokens hfront

/-- Two scripts that differ in a middle part, and whose statements lie alike before and behind it,
are split alike. -/
theorem split_replaced (policy : TerminatorPolicy) {p x' s : Text} {c : Char}
    {laterA laterB : List Statement} {begunA begunB : Statement} (hc : isBlank c = false)
    (hallA : all (p ++ (x ++ [c] ++ s)) = done ++ begunA :: laterA)
    (hallB : all (p ++ (x' ++ [c] ++ s)) = done ++ begunB :: laterB)
    (hdone : ∀ statement ∈ done, statement.stop ≤ p.byteSize ∧
      ∀ offset ∈ statement.terminator, offset ≤ p.byteSize)
    (hstart : begunA.start = begunB.start) (hle : begunA.start ≤ p.byteSize)
    (hbegun : SameEnd (p ++ (x ++ [c])).byteSize (p ++ (x' ++ [c])).byteSize begunA begunB)
    (hlater : Forall₂ (Shifted (p ++ (x ++ [c])).byteSize (p ++ (x' ++ [c])).byteSize)
      laterA laterB) : ∃ before lead trail after, lead <:+ p ∧ trail <+: s ∧
      split policy (p ++ (x ++ [c] ++ s)) =
        .ok (before ++ (lead ++ (x ++ c :: trail)) :: after) ∧
      split policy (p ++ (x' ++ [c] ++ s)) =
        .ok (before ++ (lead ++ (x' ++ c :: trail)) :: after) := by
  obtain ⟨texts, htexts⟩ := exists_split_eq_ok policy (p ++ (x ++ [c] ++ s))
  rw [split, hallA, mapM_append, mapM_cons] at htexts
  obtain ⟨before, hbefore, htexts⟩ := exists_of_bind_eq_ok htexts
  obtain ⟨_, hrest, htexts⟩ := exists_of_bind_eq_ok htexts
  obtain ⟨_, hheld, hrest⟩ := exists_of_bind_eq_ok hrest
  obtain ⟨after, hafter, hrest⟩ := exists_of_bind_eq_ok hrest
  obtain ⟨lead, trail, hlead, htrail, rfl, hheld'⟩ := hbegun.exists_text hc hstart hle policy hheld
  have hbefore' : done.mapM (text policy (p ++ (x' ++ [c] ++ s))) = .ok before := by
    refine mapM_text_eq_ok (forall₂_same.2 fun statement hmem m hm => ?_) hbefore
    rwa [text_append_left (hdone statement hmem).1 (hdone statement hmem).2 policy _
      (x ++ [c] ++ s)]
  have hafter' : laterB.mapM (text policy (p ++ (x' ++ [c] ++ s))) = .ok after := by
    refine mapM_text_eq_ok (hlater.imp fun a b hab m hm => ?_) hafter
    rw [← append_assoc] at hm ⊢
    exact hab.text_eq_ok policy hm
  refine ⟨before, lead, trail, after, hlead, htrail, ?_, ?_⟩
  · rw [split, hallA, mapM_append, mapM_cons, hbefore, hheld, hafter]
    rfl
  · rw [split, hallB, mapM_append, mapM_cons, hbefore', hheld', hafter']
    rfl

/-- What stands between brackets does not matter to the splitter : the script falls into the same
statements, and only the one with the brackets differs, by what stands between them. The brackets
open where neither a literal nor a bracketed identifier is open. Both closing brackets are read as
tokens; and the scanner is in the same literal there, or there is no comment to be read after
them. -/
theorem split_bracketed (policy : TerminatorPolicy) {p a b s : Text}
    {nesting nestingA nestingB : Nesting} {markA markB : Option Char}
    (hopen : MetIn (p ++ '[' :: (a ++ ']' :: s)) p.byteSize none nesting) (hplain : nesting.Plain)
    (ha : ']' ∉ a) (hb : ']' ∉ b)
    (hcloseA : MetIn (p ++ '[' :: (a ++ ']' :: s)) (p ++ '[' :: a).byteSize markA nestingA)
    (hcloseB : MetIn (p ++ '[' :: (b ++ ']' :: s)) (p ++ '[' :: b).byteSize markB nestingB)
    (hrest : markA = markB ∨ CommentFree s) : ∃ before lead trail after,
      lead <:+ p ∧ trail <+: s ∧
      split policy (p ++ '[' :: (a ++ ']' :: s)) =
        .ok (before ++ (lead ++ '[' :: (a ++ ']' :: trail)) :: after) ∧
      split policy (p ++ '[' :: (b ++ ']' :: s)) =
        .ok (before ++ (lead ++ '[' :: (b ++ ']' :: trail)) :: after) := by
  obtain ⟨front, opening, hopening, hstart, hfront, hmark, rfl, htokens⟩ := hopen.exists_opening
  obtain ⟨insideA, closingA, quoteA, hinsideA, hclosingA, hstopA, rfl, hscanA⟩ :=
    hcloseA.exists_closing ha hopening hstart hfront hmark (htokens _)
  obtain ⟨insideB, closingB, quoteB, hinsideB, hclosingB, hstopB, rfl, hscanB⟩ :=
    hcloseB.exists_closing hb hopening hstart hfront hmark (htokens _)
  obtain ⟨done, start, previous, hdone, hbegun, hcollect⟩ :=
    exists_collect_front front opening {} none none hfront (by simp)
  have hallA := all_bracketed hplain hopening hinsideA hclosingA
    ((htokens _).trans (by rw [hscanA])) hcollect
  have hallB := all_bracketed hplain hopening hinsideB hclosingB
    ((htokens _).trans (by rw [hscanB])) hcollect
  have hplace : ∀ c : Text, p.byteSize < (p ++ '[' :: (c ++ [']'])).byteSize := by
    intro c
    simp [show '['.utf8Size = 1 from rfl, Nat.add_comm 1]
  have hfirst : start.getD opening.start ≤ p.byteSize := by
    cases start with
    | none => exact Nat.le_of_eq hstart
    | some first => exact hbegun first rfl
  obtain ⟨hlaidA, hleA⟩ := Token.laid_scanFrom s (p ++ '[' :: (a ++ [']'])) quoteA
  obtain ⟨hlaidB, hleB⟩ := Token.laid_scanFrom s (p ++ '[' :: (b ++ [']'])) quoteB
  obtain ⟨begunA, begunB, laterA, laterB, hcollectA, hcollectB, hstartA, hstartB, hbegun, hlater⟩ :=
    (collect_shifted (Token.forall₂_shifted s quoteA quoteB hrest (Nat.le_refl _)
      (Nat.add_comm _ _)) hlaidA.pairwise_start hlaidB.pairwise_start
      (Nesting.through {} front (some opening))).2 (start.getD opening.start)
      (start.getD opening.start) closingA closingB (hclosingA.trans hclosingB.symm)
      (Nat.le_of_eq hstopA.symm) (by omega)
      (fun token hmem => by have := hleA token hmem; have := hplace a; omega)
      (fun token hmem => by have := hleB token hmem; have := hplace b; omega)
  have hmiddle : ∀ c rest : Text, p ++ '[' :: (c ++ ']' :: rest) =
      p ++ (('[' :: c) ++ [']'] ++ rest) := by simp
  rw [hmiddle, hcollectA] at hallA
  rw [hmiddle, hcollectB] at hallB
  rw [hmiddle, hmiddle]
  exact split_replaced policy (by decide) hallA hallB hdone (hstartA.trans hstartB.symm)
    (hstartA ▸ hfirst) hbegun hlater

/-- A quote mark in brackets opens a literal for the scanner, but the splitter goes on. -/
theorem split_bracketed_quote :
    MetIn "SELECT [it's]; c".toList 7 none {} ∧
    MetIn "SELECT [it's]; c".toList 12 (some '\'') { inBracket := true } ∧
    MetIn "SELECT [b;]; c".toList 10 none { inBracket := true } ∧ CommentFree "; c".toList ∧
    ∃ before lead trail after, lead <:+ "SELECT ".toList ∧ trail <+: "; c".toList ∧
      split .blockOnly "SELECT [it's]; c".toList =
        .ok (before ++ (lead ++ '[' :: ("it's".toList ++ ']' :: trail)) :: after) ∧
      split .blockOnly "SELECT [b;]; c".toList =
        .ok (before ++ (lead ++ '[' :: ("b;".toList ++ ']' :: trail)) :: after) := by
  have hopen : MetIn "SELECT [it's]; c".toList 7 none {} :=
    ⟨(tokens "SELECT [it's]; c".toList).take 1, ⟨7, 8, ['['], false⟩,
      (tokens "SELECT [it's]; c".toList).drop 2, by decide +kernel, rfl, by decide +kernel,
      by decide +kernel⟩
  have hcloseA : MetIn "SELECT [it's]; c".toList 12 (some '\'') { inBracket := true } :=
    ⟨(tokens "SELECT [it's]; c".toList).take 5, ⟨12, 13, [']'], true⟩,
      (tokens "SELECT [it's]; c".toList).drop 6, by decide +kernel, rfl, by decide +kernel,
      by decide +kernel⟩
  have hcloseB : MetIn "SELECT [b;]; c".toList 10 none { inBracket := true } :=
    ⟨(tokens "SELECT [b;]; c".toList).take 4, ⟨10, 11, [']'], false⟩,
      (tokens "SELECT [b;]; c".toList).drop 5, by decide +kernel, rfl, by decide +kernel,
      by decide +kernel⟩
  have hrest : CommentFree "; c".toList := commentFree_of_notMem (by decide) (by decide)
  exact ⟨hopen, hcloseA, hcloseB, hrest, split_bracketed .blockOnly (p := "SELECT ".toList)
    (a := "it's".toList) (b := "b;".toList) (s := "; c".toList) hopen ⟨rfl, rfl⟩ (by decide)
    (by decide) hcloseA hcloseB (.inr hrest)⟩

/-- Two dashes in brackets open a comment, so the brackets do not close and the statement goes on :
the splitter is not free of what stands between them. -/
theorem split_bracketed_dashes :
    MetIn "SELECT [a--b]; c".toList 7 none {} ∧ ']' ∉ "a--b".toList ∧ ']' ∉ "ab".toList ∧
    (split .keep "SELECT [a--b]; c".toList).toOption = some ["SELECT [a".toList] ∧
    (split .keep "SELECT [ab]; c".toList).toOption = some ["SELECT [ab];".toList, "c".toList] := by
  refine ⟨⟨(tokens "SELECT [a--b]; c".toList).take 1, ⟨7, 8, ['['], false⟩,
    (tokens "SELECT [a--b]; c".toList).drop 2, by decide +kernel, rfl, by decide +kernel,
    by decide +kernel⟩, by decide, by decide, by decide +kernel, by decide +kernel⟩

end Statement

end SqlScript
