import SqlScript.Proofs.Seam
import SqlScript.Rule.Basic

/-!
# Where a rule looks next

A rule replaces a match and goes on to search at a token that is counted from the start of the text.
No token after what was put in is passed over if at least as many tokens come before it as are
counted (`Examined`, `examined_iff`). Before the match there are as many tokens as there were, if no
comment opens at the seam (`countP_tokens`). So what counts is whether a token starts in what was
put in. One is counted there if the replacement of the rule has a token (`CompiledRule.advance`),
though it may be that nothing was put in for it, or that what was put in goes on with the word
before it. `CompiledRule.step_examines_rest_iff` says so, and `CompiledRule.step_passes_over_match`
is such a case.
-/

namespace SqlScript

/-- A search from token `first` on looks at all the tokens from the offset on. -/
def Examined (sql : Text) (offset first : Nat) : Prop :=
  ∀ (i : Nat) (token : Token), (tokens sql)[i]? = some token → offset ≤ token.start → first ≤ i

theorem examined_iff (sql : Text) (offset first : Nat) : Examined sql offset first ↔
    first ≤ (tokens sql).countP (·.start < offset) ∨
      ∀ token ∈ tokens sql, token.start < offset := by
  have hlaid := laid_tokens sql
  constructor
  · intro h
    by_cases hall : ∀ token ∈ tokens sql, token.start < offset
    · exact .inr hall
    · refine .inl ?_
      simp only [Classical.not_forall] at hall
      obtain ⟨token, hmem, hstart⟩ := hall
      obtain ⟨j, hj⟩ := List.getElem?_of_mem hmem
      have hcount := hlaid.start_lt_iff hj offset
      have hlength := (List.getElem?_eq_some_iff.1 hj).1
      have hget := List.getElem?_eq_getElem
        (show (tokens sql).countP (·.start < offset) < (tokens sql).length by omega)
      have hfirst := hlaid.start_lt_iff hget offset
      exact h _ _ hget (by omega)
  · rintro (hle | hall) i token hget hstart
    · have hiff := hlaid.start_lt_iff hget offset
      omega
    · have hlt := hall token (List.mem_of_getElem? hget)
      omega

/-! ## One replacement -/

/-- A match starts where the token with its index does. -/
theorem Search.firstFrom_start {sql : Text} {blocks : List PatternBlock} {index : Nat}
    {run : List Token} {found : PatternMatch} (hrun : (tokens sql).drop index = run)
    (h : firstFrom sql blocks index run = .ok (some found)) :
    ∃ token, (tokens sql)[found.startToken]? = some token ∧ token.start = found.start := by
  induction run generalizing index with
  | nil => simp [firstFrom] at h
  | cons token later ih =>
    rw [firstFrom] at h
    obtain ⟨attempt, -, h⟩ := exists_of_bind_eq_ok h
    cases attempt with
    | some attempt =>
      obtain ⟨rfl⟩ : some (PatternMatch.mk token.start attempt.stop index attempt.bindings) =
        some found := Except.ok.inj h
      refine ⟨token, ?_, rfl⟩
      rw [← List.head?_drop, hrun]
      rfl
    | none =>
      refine ih ?_ h
      rw [← List.drop_drop, hrun]
      rfl

theorem Text.exists_of_replaceSlice {t new result : Text} {start stop : Nat}
    (h : t.replaceSlice start stop new = .ok result) : ∃ before old after,
      t = before ++ old ∧ before.byteSize = start ∧ result = before ++ (new ++ after) := by
  obtain ⟨before, hbefore, h⟩ := exists_of_bind_eq_ok h
  obtain ⟨after, -, h⟩ := exists_of_bind_eq_ok h
  have htake : t.takeBytes? start = some before := by
    unfold sliceTo at hbefore
    split at hbefore
    · rename_i part hpart
      rw [hpart, Except.ok.inj hbefore]
    · cases hbefore
  obtain ⟨old, hold, hsize⟩ := takeBytes?_eq_some_iff.1 htake
  refine ⟨before, old, after, hold, hsize, ?_⟩
  rw [← List.append_assoc]
  exact (Except.ok.inj h).symm

theorem tokenize_eq_ok {t : Text} {run : List Token} (h : tokenize t = .ok run) : run = tokens t :=
  (congrArg Scan.tokens (scan_of_tokenize h)).symm

namespace CompiledRule

/-- What a step does when it replaces a match. -/
theorem exists_of_step {rule : CompiledRule} {state next : Progress}
    (h : rule.step state = .ok (some next)) : ∃ found,
      search state.sql (tokens state.sql) rule.pattern state.first = .ok (some found) ∧
      state.sql.replaceSlice found.start found.stop
        (found.bindings.substitute rule.replacement) = .ok next.sql ∧
      next.first = found.startToken + rule.advance := by
  obtain ⟨run, hrun, h⟩ := exists_of_bind_eq_ok h
  obtain rfl := tokenize_eq_ok hrun
  obtain ⟨result, hsearch, h⟩ := exists_of_bind_eq_ok h
  cases result with
  | none => cases h
  | some found =>
    obtain ⟨sql, hsql, h⟩ := exists_of_bind_eq_ok h
    cases h
    exact ⟨found, hsearch, hsql, rfl⟩

theorem advance_cases (rule : CompiledRule) :
    tokens rule.replacement = [] ∧ rule.advance = 0 ∨
      tokens rule.replacement ≠ [] ∧ rule.advance = 1 := by
  unfold advance
  cases tokens rule.replacement <;> simp

/-- A step replaces a match and leaves the token at which to look next. If no comment opens before
the match that did not, the step passes over no token after what was put in just if the replacement
of the rule has no token, or a token starts in what was put in, or no token follows it. -/
theorem step_examines_rest_iff {rule : CompiledRule} {state next : Progress}
    (h : rule.step state = .ok (some next)) : ∃ found inserted,
      search state.sql (tokens state.sql) rule.pattern state.first = .ok (some found) ∧
      inserted = found.bindings.substitute rule.replacement ∧
      state.sql.replaceSlice found.start found.stop inserted = .ok next.sql ∧
      next.first = found.startToken + rule.advance ∧
      ((∀ p < found.start, opensComment next.sql p = true → opensComment state.sql p = true) →
        (Examined next.sql (found.start + inserted.byteSize) next.first ↔
          tokens rule.replacement = [] ∨
          (∃ token ∈ tokens next.sql,
            found.start ≤ token.start ∧ token.start < found.start + inserted.byteSize) ∨
          ∀ token ∈ tokens next.sql, token.start < found.start + inserted.byteSize)) := by
  obtain ⟨found, hsearch, hsql, hfirst⟩ := exists_of_step h
  refine ⟨found, _, hsearch, rfl, hsql, hfirst, fun hcomment => ?_⟩
  generalize found.bindings.substitute rule.replacement = inserted at hsql ⊢
  obtain ⟨token, hget, hstart⟩ := Search.firstFrom_start rfl hsearch
  obtain ⟨before, old, after, hold, hsize, hnew⟩ := Text.exists_of_replaceSlice hsql
  have hkept : (tokens next.sql).countP (·.start < found.start) = found.startToken := by
    have hmem := List.mem_of_getElem? hget
    have hcount := (laid_tokens state.sql).countP_start hget
    rw [hold, hnew, ← hsize] at hcomment
    rw [hold] at hmem hcount
    rw [hnew, ← hsize, countP_tokens hmem (hstart.trans hsize.symm) hcomment, hsize, ← hstart,
      hcount]
  have hput := (laid_tokens next.sql).countP_lt_iff found.start (found.start + inserted.byteSize)
  have hle : (tokens next.sql).countP (·.start < found.start) ≤
      (tokens next.sql).countP (·.start < found.start + inserted.byteSize) := by
    refine List.countP_mono_left fun token _ hlt => ?_
    simp only [decide_eq_true_eq] at hlt ⊢
    omega
  rw [examined_iff, hfirst, ← hput, hkept]
  rw [hkept] at hle
  rcases rule.advance_cases with ⟨hnil, hadvance⟩ | ⟨hne, hadvance⟩
  · simp only [hnil, hadvance, Nat.add_zero, hle, true_or]
  · simp only [hne, hadvance, false_or, Nat.succ_le_iff]

/-- A function call, and what is put in its place. -/
def today : CompiledRule where
  pattern := ⟨"GETDATE()".toList, [.literal "getdate".toList, .literal ['('], .literal [')']]⟩
  replacement := "CURRENT_DATE".toList

theorem step_examines_rest_calls :
    (today.step ⟨"SELECT GETDATE(), GETDATE()".toList, 0⟩).toOption =
      some (some ⟨"SELECT CURRENT_DATE, GETDATE()".toList, 2⟩) ∧
    Examined "SELECT CURRENT_DATE, GETDATE()".toList 19 2 := by
  have hstep : (today.step ⟨"SELECT GETDATE(), GETDATE()".toList, 0⟩).toOption =
      some (some ⟨"SELECT CURRENT_DATE, GETDATE()".toList, 2⟩) := by decide +kernel
  refine ⟨hstep, ?_⟩
  obtain ⟨found, inserted, hsearch, rfl, -, -, hiff⟩ :=
    step_examines_rest_iff (eq_ok_of_toOption hstep)
  have hfound : (search "SELECT GETDATE(), GETDATE()".toList
      (tokens "SELECT GETDATE(), GETDATE()".toList) today.pattern 0).toOption =
      some (some ⟨7, 16, 1, []⟩) := by decide +kernel
  rw [hsearch] at hfound
  obtain rfl := Option.some.inj (Option.some.inj hfound)
  have hsize : (Parameters.substitute [] today.replacement).byteSize = 12 := by decide +kernel
  have hexamined := (hiff (by decide +kernel)).2 (.inr (.inl (by decide +kernel)))
  dsimp only at hexamined
  rwa [hsize] at hexamined

/-- What stands between two words, in the place of all three. -/
def unwrap : CompiledRule where
  pattern := ⟨"f @x g".toList,
    [.literal "f".toList, .placeholder "x".toList none, .literal "g".toList]⟩
  replacement := "@x".toList

/-- A step that puts nothing in may pass over the next match. -/
theorem step_passes_over_match :
    (Pattern.compile unwrap.pattern.source).toOption = some unwrap.pattern ∧
    (search "f g f a g".toList (tokens "f g f a g".toList) unwrap.pattern 0).toOption =
      some (some ⟨0, 3, 0, [("x".toList, [])]⟩) ∧
    Parameters.substitute [("x".toList, [])] unwrap.replacement = [] ∧
    (unwrap.step ⟨"f g f a g".toList, 0⟩).toOption = some (some ⟨" f a g".toList, 1⟩) ∧
    ¬ Examined " f a g".toList 0 1 ∧
    (search " f a g".toList (tokens " f a g".toList) unwrap.pattern 0).toOption =
      some (some ⟨1, 6, 0, [("x".toList, "a ".toList)]⟩) ∧
    (unwrap.apply "f g f a g".toList).toOption = some " f a g".toList := by
  refine ⟨by decide +kernel, by decide +kernel, by decide +kernel, by decide +kernel, fun h => ?_,
    by decide +kernel, by decide +kernel⟩
  have hfirst := h 0 ⟨1, 2, ['f'], false⟩ (by decide +kernel) (by decide)
  exact absurd hfirst (by decide)

end CompiledRule

end SqlScript
