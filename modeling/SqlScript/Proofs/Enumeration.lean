import SqlScript.Proofs.Halting
import SqlScript.Proofs.Passes

/-!
# Matches do not depend on where a search starts

Whether a match starts at a token is a matter of that token and the tokens after it. So a search
that finds nothing finds nothing from any later token either, and a search that finds a match finds
the same one from every token up to the first token of the match (`Search.search_of_le`).

The matches of a script are enumerated by searching again behind the first token of the last match
(`Search.Enumerated`). From whatever token this starts, it gives the matches that start there or
later, out of those of the whole script, each one once (`Search.Enumerated.filter`).

All this holds of the loop of a matcher, which keeps the state of an attempt from one token to the
next, since the loop gives what `search` gives (`Search.search_from_any_start`).
-/

namespace SqlScript

namespace Search

/-! ## The start of a search -/

/-- A search that does not find a match at its first token does without that token. -/
theorem search_succ {sql : Text} {run : List Token} {pattern : Pattern} {first : Nat}
    {result : Option PatternMatch} (h : search sql run pattern first = .ok result)
    (hne : ∀ found ∈ result, found.startToken ≠ first) :
    search sql run pattern (first + 1) = .ok result := by
  unfold search at h ⊢
  cases hrun : run.drop first with
  | nil =>
    rw [hrun] at h
    rw [← List.drop_drop, hrun]
    exact h
  | cons token later =>
    rw [hrun, firstFrom] at h
    rw [drop_succ_of_drop hrun]
    obtain ⟨attempt, -, h⟩ := exists_of_bind_eq_ok h
    cases attempt with
    | none => exact h
    | some attempt =>
      cases h
      exact absurd rfl (hne _ rfl)

/-- A search finds the same from every later token that does not lie behind the match. -/
theorem search_of_le {sql : Text} {run : List Token} {pattern : Pattern} {first later : Nat}
    {result : Option PatternMatch} (h : search sql run pattern first = .ok result)
    (hle : first ≤ later) (hbehind : ∀ found ∈ result, later ≤ found.startToken) :
    search sql run pattern later = .ok result := by
  induction hle with
  | refl => exact h
  | @step later _ ih =>
    refine search_succ (ih fun found hfound => ?_) fun found hfound => ?_
    · exact Nat.le_of_succ_le (hbehind found hfound)
    · exact Nat.ne_of_gt (hbehind found hfound)

/-- A match that is found starts at a token of the script. -/
theorem startToken_lt_length {sql : Text} {pattern : Pattern} {first : Nat} {found : PatternMatch}
    (h : search sql (tokens sql) pattern first = .ok (some found)) :
    found.startToken < (tokens sql).length := by
  obtain ⟨token, hget, -⟩ := firstFrom_start rfl h
  exact (List.getElem?_eq_some_iff.1 hget).1

/-! ## All matches -/

/-- The matches that are found one after the other, when the search goes on behind the first token
of each match. -/
inductive Enumerated (sql : Text) (pattern : Pattern) : Nat → List PatternMatch → Prop where
  | done {first : Nat} : search sql (tokens sql) pattern first = .ok none →
    Enumerated sql pattern first []
  | next {first : Nat} {found : PatternMatch} {later : List PatternMatch} :
    search sql (tokens sql) pattern first = .ok (some found) →
    Enumerated sql pattern (found.startToken + 1) later →
    Enumerated sql pattern first (found :: later)

namespace Enumerated

variable {sql : Text} {pattern : Pattern} {first : Nat} {list list' : List PatternMatch}

theorem unique (h : Enumerated sql pattern first list) (h' : Enumerated sql pattern first list') :
    list = list' := by
  induction h generalizing list' with
  | done hnone =>
    cases h' with
    | done => rfl
    | next hsome => cases hnone.symm.trans hsome
  | next hsome _ ih =>
    cases h' with
    | done hnone => cases hsome.symm.trans hnone
    | next hsome' hlater =>
      obtain rfl := Option.some.inj (Except.ok.inj (hsome.symm.trans hsome'))
      rw [ih hlater]

theorem le_startToken (h : Enumerated sql pattern first list) :
    ∀ found ∈ list, first ≤ found.startToken := by
  induction h with
  | done => simp
  | next hsome _ ih =>
    have hle := Search.le_startToken hsome
    refine List.forall_mem_cons.2 ⟨hle, fun found hmem => ?_⟩
    exact Nat.le_trans (Nat.le_succ_of_le hle) (ih found hmem)

/-- No two matches start at one token, and they come in the order of their tokens. -/
theorem pairwise (h : Enumerated sql pattern first list) :
    list.Pairwise fun a b => a.startToken < b.startToken := by
  induction h with
  | done => exact .nil
  | next _ hlater ih => exact List.pairwise_cons.2 ⟨hlater.le_startToken, ih⟩

/-- An enumeration that starts later leaves out what starts before. -/
theorem filter {later : Nat} (h : Enumerated sql pattern first list) (hle : first ≤ later) :
    Enumerated sql pattern later (list.filter fun found => later ≤ found.startToken) := by
  induction h with
  | done hnone => exact .done (search_of_le hnone hle (by simp))
  | @next first found rest hsome hrest ih =>
    by_cases hbehind : later ≤ found.startToken
    · have hself : (rest.filter fun other => later ≤ other.startToken) = rest := by
        refine List.filter_eq_self.2 fun other hmem => ?_
        have hlt := hrest.le_startToken other hmem
        simp only [decide_eq_true_eq]
        omega
      rw [List.filter_cons_of_pos (by simpa using hbehind), hself]
      exact .next (search_of_le hsome hle (by simpa using hbehind)) hrest
    · rw [List.filter_cons_of_neg (by simpa using hbehind)]
      exact ih (by omega)

end Enumerated

/-- Enumerating ends, if every search has a result. -/
theorem exists_enumerated {sql : Text} {pattern : Pattern}
    (h : ∀ first, ∃ result, search sql (tokens sql) pattern first = .ok result) (first : Nat) :
    ∃ list, Enumerated sql pattern first list := by
  -- by induction on the number of tokens that are left
  induction hleft : (tokens sql).length - first using Nat.strongRecOn generalizing first with
  | ind left ih =>
    subst hleft
    obtain ⟨result, hresult⟩ := h first
    cases result with
    | none => exact ⟨[], .done hresult⟩
    | some found =>
      have hle := le_startToken hresult
      have hlt := startToken_lt_length hresult
      obtain ⟨list, hlist⟩ := ih _ (by omega) (found.startToken + 1) rfl
      exact ⟨found :: list, .next hresult hlist⟩

/-- What a search finds does not depend on where it starts, nor on what the loop has tried before.
The loop gives what `search` gives. If there is nothing to be found from a token on, there is
nothing from any later token; if there is a match, it starts there or later, and it is found from
every token up to the one where it starts. So the matches that are enumerated from a token on are
those of the whole script that start there or later, in order and each one once. -/
theorem search_from_any_start (source : Text) (pattern : Pattern)
    (hpattern : Pattern.compile source = .ok pattern) (sql : Text) (first : Nat) :
    (∀ result, search sql (tokens sql) pattern first = .ok result ↔
      ∃ turns, Matcher.run sql (tokens sql) pattern.blocks turns { cursor := first } =
        some (.ofResult result)) ∧
    (search sql (tokens sql) pattern first = .ok none ∧
        (∀ later, first ≤ later → search sql (tokens sql) pattern later = .ok none) ∨
      ∃ found, search sql (tokens sql) pattern first = .ok (some found) ∧
        first ≤ found.startToken ∧ ∀ later, first ≤ later → later ≤ found.startToken →
          search sql (tokens sql) pattern later = .ok (some found)) ∧
    ∃ all, Enumerated sql pattern 0 all ∧
      (all.Pairwise fun a b => a.startToken < b.startToken) ∧
      ∀ list, Enumerated sql pattern first list ↔
        list = all.filter fun found => first ≤ found.startToken := by
  have hsound := Pattern.sound_of_compile hpattern
  have htotal : ∀ first, ∃ result, search sql (tokens sql) pattern first = .ok result ∧
      ∃ turns, Matcher.run sql (tokens sql) pattern.blocks turns { cursor := first } =
        some (.ofResult result) := by
    intro first
    obtain ⟨result, hresult, hrun⟩ := Matcher.exists_run (laid_tokens sql) hsound _ rfl
    exact ⟨result, hresult, _, hrun⟩
  refine ⟨fun result => ?_, ?_, ?_⟩
  · obtain ⟨result', hresult, turns, hrun⟩ := htotal first
    constructor
    · intro hsearch
      obtain rfl := Except.ok.inj (hresult.symm.trans hsearch)
      exact ⟨turns, hrun⟩
    · rintro ⟨turns', hrun'⟩
      rw [hresult, Matcher.Outcome.ofResult_injective (Matcher.run_unique hrun hrun')]
  · obtain ⟨result, hresult, -⟩ := htotal first
    cases result with
    | none => exact .inl ⟨hresult, fun later hle => search_of_le hresult hle (by simp)⟩
    | some found =>
      refine .inr ⟨found, hresult, le_startToken hresult, fun later hle hbehind => ?_⟩
      exact search_of_le hresult hle (by simpa using hbehind)
  · obtain ⟨all, hall⟩ := exists_enumerated
      (fun first => (htotal first).imp fun _ h => h.1) 0
    have hfirst := hall.filter (Nat.zero_le first)
    refine ⟨all, hall, hall.pairwise, fun list => ⟨fun h => h.unique hfirst, ?_⟩⟩
    rintro rfl
    exact hfirst

/-- A query that stands where the table of another one should. -/
def nestedQueries : Text :=
  "SELECT a FROM SELECT b FROM t".toList

theorem search_from_any_start_nested :
    (Pattern.compile columns.source).toOption = some columns ∧
    Enumerated nestedQueries columns 0
      [⟨0, 13, 0, [("columns".toList, "a ".toList)]⟩,
        ⟨14, 27, 3, [("columns".toList, "b ".toList)]⟩] ∧
    ∀ list, Enumerated nestedQueries columns 1 list ↔
      list = [⟨14, 27, 3, [("columns".toList, "b ".toList)]⟩] := by
  have hcompile : (Pattern.compile columns.source).toOption = some columns := by decide +kernel
  have hfirst : (search nestedQueries (tokens nestedQueries) columns 0).toOption =
      some (some ⟨0, 13, 0, [("columns".toList, "a ".toList)]⟩) := by decide +kernel
  have hsecond : (search nestedQueries (tokens nestedQueries) columns 1).toOption =
      some (some ⟨14, 27, 3, [("columns".toList, "b ".toList)]⟩) := by decide +kernel
  have hnone : (search nestedQueries (tokens nestedQueries) columns 4).toOption = some none := by
    decide +kernel
  have hall : Enumerated nestedQueries columns 0
      [⟨0, 13, 0, [("columns".toList, "a ".toList)]⟩,
        ⟨14, 27, 3, [("columns".toList, "b ".toList)]⟩] :=
    .next (eq_ok_of_toOption hfirst)
      (.next (eq_ok_of_toOption hsecond) (.done (eq_ok_of_toOption hnone)))
  refine ⟨hcompile, hall, fun list => ?_⟩
  obtain ⟨-, -, all, hzero, -, hfilter⟩ :=
    search_from_any_start _ _ (eq_ok_of_toOption hcompile) nestedQueries 1
  obtain rfl := hzero.unique hall
  exact hfilter list

end Search

end SqlScript
