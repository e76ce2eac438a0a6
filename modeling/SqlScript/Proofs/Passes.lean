import SqlScript.Proofs.Resume

/-!
# The passes of a rule

A rule is applied in passes, each of which finds a match and replaces it (`CompiledRule.Passes`).
However the passes go on, they leave alone what stands before the last match : matches start further
and further to the right, and two texts that passes lead to agree up to the match that the earlier
one was made at (`CompiledRule.settled_of_passes`).

The place to look next is kept as a number of tokens. That it lies behind an offset of the text is
the invariant (`Progress.Behind`). A pass moves it behind the start of its match
(`CompiledRule.Replaces.behind`), since a change adds no token before it (`countP_tokens_le`) and no
two tokens start at one offset (`Laid.countP_succ_le`).
-/

namespace SqlScript

open List Text

variable {offset size : Nat} {sql t t' : Text}

namespace Text

/-- The texts have the same first bytes, as many as are given. -/
def AgreesTo (size : Nat) (t t' : Text) : Prop :=
  ∃ lead, t.takeBytes? size = some lead ∧ t'.takeBytes? size = some lead

theorem agreesTo_append (lead t t' : Text) : AgreesTo lead.byteSize (lead ++ t) (lead ++ t') :=
  ⟨lead, takeBytes?_append lead t, takeBytes?_append lead t'⟩

theorem AgreesTo.mono {size' : Nat} (h : AgreesTo size' t t')
    (hplace : t.IsPlace size) (hle : size ≤ size') : AgreesTo size t t' := by
  obtain ⟨lead', ht, ht'⟩ := h
  obtain ⟨rest, rfl, hsize'⟩ := takeBytes?_eq_some_iff.1 ht
  obtain ⟨rest', rfl, -⟩ := takeBytes?_eq_some_iff.1 ht'
  obtain ⟨lead, after, happend, rfl⟩ := isPlace_iff.1 hplace
  obtain ⟨tail, rfl, -⟩ := exists_append_of_byteSize_le happend.symm (by omega)
  rw [append_assoc, append_assoc]
  exact agreesTo_append lead _ _

theorem AgreesTo.trans {t'' : Text} (h : AgreesTo size t t')
    (h' : AgreesTo size t' t'') : AgreesTo size t t'' := by
  obtain ⟨lead, ht, ht'⟩ := h
  obtain ⟨lead', hlead', ht''⟩ := h'
  obtain rfl : lead = lead' := Option.some.inj (ht'.symm.trans hlead')
  exact ⟨lead, ht, ht''⟩

theorem AgreesTo.isPlace (h : AgreesTo size t t') : t'.IsPlace size := by
  obtain ⟨lead, -, ht'⟩ := h
  obtain ⟨rest, rfl, hsize⟩ := takeBytes?_eq_some_iff.1 ht'
  exact isPlace_iff.2 ⟨lead, rest, rfl, hsize⟩

end Text

/-! ## Where the search goes on -/

/-- No two tokens start at one offset. -/
theorem Laid.countP_succ_le {tokens : List Token} (h : Laid sql tokens)
    (offset : Nat) :
    tokens.countP (·.start < offset + 1) ≤ tokens.countP (·.start < offset) + 1 := by
  refine Nat.le_of_not_lt fun hlt => ?_
  have hlength : tokens.countP (·.start < offset + 1) ≤ tokens.length := countP_le_length
  have hget := getElem?_eq_getElem
    (show tokens.countP (·.start < offset) < tokens.length by omega)
  have hget' := getElem?_eq_getElem
    (show tokens.countP (·.start < offset) + 1 < tokens.length by omega)
  have hfirst := h.start_lt_iff hget offset
  have hsecond := (h.start_lt_iff hget' (offset + 1)).2 (by omega)
  have hstop := h.start_lt_stop (mem_of_getElem? hget)
  have hordered := pairwise_iff_getElem.1 h.ordered _ _ (by omega) (by omega)
    (Nat.lt_add_one (tokens.countP (·.start < offset)))
  omega

/-- All the tokens at which to look start at the offset or later. -/
def Progress.Behind (offset : Nat) (state : Progress) : Prop :=
  (tokens state.sql).countP (·.start < offset) ≤ state.first

theorem Progress.Behind.mono {offset' : Nat} {state : Progress} (h : state.Behind offset')
    (hle : offset ≤ offset') : state.Behind offset := by
  refine Nat.le_trans (countP_mono_left fun token _ hlt => ?_) h
  simp only [decide_eq_true_eq] at hlt ⊢
  omega

/-- A match is found at the place where the search starts or later. -/
theorem Search.le_startToken {blocks : List PatternBlock} {index : Nat}
    {run : List Token} {found : PatternMatch}
    (h : firstFrom sql blocks index run = .ok (some found)) : index ≤ found.startToken := by
  induction run generalizing index with
  | nil => simp [firstFrom] at h
  | cons token later ih =>
    rw [firstFrom] at h
    obtain ⟨attempt, -, h⟩ := exists_of_bind_eq_ok h
    cases attempt with
    | some attempt =>
      obtain ⟨rfl⟩ : some (PatternMatch.mk token.start attempt.stop index attempt.bindings) =
        some found := Except.ok.inj h
      exact Nat.le_refl _
    | none => exact Nat.le_of_succ_le (ih h)

/-- A match starts behind the offset behind which the tokens at which to look start. -/
theorem Progress.Behind.le_start {state : Progress} {pattern : Pattern}
    {found : PatternMatch} (h : state.Behind offset)
    (hsearch : search state.sql (tokens state.sql) pattern state.first = .ok (some found)) :
    offset ≤ found.start := by
  obtain ⟨token, hget, hstart⟩ := Search.firstFrom_start rfl hsearch
  have hfirst := Search.le_startToken hsearch
  have hcount := (laid_tokens state.sql).start_lt_iff hget offset
  unfold Behind at h
  omega

namespace CompiledRule

/-! ## One pass -/

/-- The rule finds a match and replaces it. -/
structure Replaces (rule : CompiledRule) (state : Progress) (found : PatternMatch)
    (next : Progress) : Prop where
  search : search state.sql (tokens state.sql) rule.pattern state.first = .ok (some found)
  step : rule.step state = .ok (some next)

section Pass

variable {rule : CompiledRule} {state next : Progress} {found : PatternMatch}

/-- A step that replaces something replaces what the search finds. -/
theorem exists_replaces (h : rule.step state = .ok (some next)) :
    ∃ found, rule.Replaces state found next := by
  obtain ⟨found, hsearch, -⟩ := exists_of_step h
  exact ⟨found, hsearch, h⟩

/-- The text of a match makes way for what is put in, and the rest of the text stays. -/
theorem Replaces.exists_parts (h : rule.Replaces state found next) : ∃ before old after,
    state.sql = before ++ old ∧ before.byteSize = found.start ∧
    next.sql = before ++ (found.bindings.substitute rule.replacement ++ after) ∧
    next.first = found.startToken + rule.advance := by
  obtain ⟨found', hsearch, hsql, hfirst⟩ := exists_of_step h.step
  obtain rfl : found' = found := Option.some.inj (Except.ok.inj (hsearch.symm.trans h.search))
  obtain ⟨before, old, after, hold, hsize, hnew⟩ := exists_of_replaceSlice hsql
  exact ⟨before, old, after, hold, hsize, hnew, hfirst⟩

/-- A pass keeps the text before its match. -/
theorem Replaces.agreesTo (h : rule.Replaces state found next) :
    AgreesTo found.start state.sql next.sql := by
  obtain ⟨before, old, after, hold, hsize, hnew, -⟩ := h.exists_parts
  rw [hold, hnew, ← hsize]
  exact agreesTo_append before _ _

/-- Not more tokens come before the match than did. -/
theorem Replaces.countP_le (h : rule.Replaces state found next) :
    (tokens next.sql).countP (·.start < found.start) ≤ found.startToken := by
  obtain ⟨before, old, after, hold, hsize, hnew, -⟩ := h.exists_parts
  obtain ⟨token, hget, hstart⟩ := Search.firstFrom_start rfl h.search
  have hmem := mem_of_getElem? hget
  have hcount := (laid_tokens state.sql).countP_start hget
  rw [hold] at hmem
  rw [hold, hstart, ← hsize] at hcount
  rw [hnew, ← hsize, ← hcount]
  exact countP_tokens_le _ hmem (hstart.trans hsize.symm)

/-- After a pass the search goes on behind the start of the match, and past the first token there if
the replacement has one. -/
theorem Replaces.behind (h : rule.Replaces state found next) :
    next.Behind (found.start + rule.advance) := by
  obtain ⟨-, -, -, -, -, -, hfirst⟩ := h.exists_parts
  have hcount := h.countP_le
  unfold Progress.Behind
  rw [hfirst]
  rcases rule.advance_cases with ⟨-, hadvance⟩ | ⟨-, hadvance⟩
  · rwa [hadvance]
  · have hsucc := (laid_tokens next.sql).countP_succ_le found.start
    rw [hadvance]
    omega

end Pass

/-! ## Runs -/

/-- A match that was replaced, and what came of it. -/
structure Stage where
  found : PatternMatch
  next : Progress

/-- The rule replaces a match at each of the stages, one after the other. -/
inductive Passes (rule : CompiledRule) : Progress → List Stage → Prop where
  | nil (state : Progress) : Passes rule state []
  | cons {state : Progress} {stage : Stage} {stages : List Stage} :
    rule.Replaces state stage.found stage.next → Passes rule stage.next stages →
    Passes rule state (stage :: stages)

/-- What the stages lead to. -/
def lastState (state : Progress) : List Stage → Progress
  | [] => state
  | stage :: stages => lastState stage.next stages

section Run

variable {rule : CompiledRule} {state : Progress} {stages : List Stage}

/-- A run that ends is made of passes, after which the rule finds no match. -/
theorem exists_passes {limit : Nat} {final : Progress}
    (h : repeatSteps rule.step limit state = .ok final) :
    ∃ stages, rule.Passes state stages ∧ lastState state stages = final ∧
      rule.step final = .ok none := by
  induction limit generalizing state with
  | zero => simp [repeatSteps] at h
  | succ limit ih =>
    rw [repeatSteps] at h
    obtain ⟨result, hstep, h⟩ := exists_of_bind_eq_ok h
    cases result with
    | none =>
      obtain rfl := Except.ok.inj h
      exact ⟨[], .nil state, rfl, hstep⟩
    | some next =>
      obtain ⟨found, hreplaces⟩ := exists_replaces hstep
      obtain ⟨stages, hpasses, hlast, hnone⟩ := ih h
      exact ⟨⟨found, next⟩ :: stages, .cons hreplaces hpasses, hlast, hnone⟩

theorem exists_passes_of_apply {out : Text} (h : rule.apply sql = .ok out) :
    ∃ stages, rule.Passes ⟨sql, 0⟩ stages ∧ (lastState ⟨sql, 0⟩ stages).sql = out ∧
      rule.step (lastState ⟨sql, 0⟩ stages) = .ok none := by
  obtain ⟨final, hrun, h⟩ := exists_of_bind_eq_ok h
  obtain ⟨stages, hpasses, rfl, hnone⟩ := exists_passes hrun
  exact ⟨stages, hpasses, Except.ok.inj h, hnone⟩

/-- All the matches of a run start behind the offset behind which it starts to look. -/
theorem Passes.le_start (h : rule.Passes state stages)
    (hbehind : state.Behind offset) : ∀ stage ∈ stages, offset ≤ stage.found.start := by
  induction h with
  | nil => simp
  | cons hreplaces _ ih =>
    have hle := hbehind.le_start hreplaces.search
    exact forall_mem_cons.2 ⟨hle, ih (hreplaces.behind.mono (Nat.le_add_right_of_le hle))⟩

theorem Passes.pairwise_start (h : rule.Passes state stages) :
    stages.Pairwise fun a b => a.found.start + rule.advance ≤ b.found.start := by
  induction h with
  | nil => exact .nil
  | cons hreplaces hpasses ih =>
    exact pairwise_cons.2 ⟨hpasses.le_start hreplaces.behind, ih⟩

/-- All the texts of a run agree with the one before it, up to an offset behind which the run starts
to look. -/
theorem Passes.agreesTo (h : rule.Passes state stages)
    (hbehind : state.Behind offset) (hplace : state.sql.IsPlace offset) :
    ∀ stage ∈ stages, AgreesTo offset state.sql stage.next.sql := by
  induction h with
  | nil => simp
  | cons hreplaces _ ih =>
    have hle := hbehind.le_start hreplaces.search
    have hagrees := hreplaces.agreesTo.mono hplace hle
    refine forall_mem_cons.2 ⟨hagrees, fun stage hmem => hagrees.trans ?_⟩
    exact ih (hreplaces.behind.mono (Nat.le_add_right_of_le hle)) hagrees.isPlace stage hmem

theorem Passes.pairwise_agreesTo (h : rule.Passes state stages) :
    stages.Pairwise fun a b => AgreesTo a.found.start a.next.sql b.next.sql := by
  induction h with
  | nil => exact .nil
  | cons hreplaces hpasses ih =>
    refine pairwise_cons.2 ⟨?_, ih⟩
    exact hpasses.agreesTo (hreplaces.behind.mono (Nat.le_add_right _ _)) hreplaces.agreesTo.isPlace

/-- No stage of the run touches the text before the match of an earlier stage. -/
structure Settled (rule : CompiledRule) (sql : Text) (stages : List Stage) : Prop where
  /-- A match does not start before an earlier one. -/
  ordered : stages.Pairwise fun a b => a.found.start ≤ b.found.start
  /-- If the replacement has a token, it starts after it. -/
  strict : tokens rule.replacement ≠ [] → stages.Pairwise fun a b => a.found.start < b.found.start
  /-- The text is what it was at first, up to the first match. -/
  original : ∀ first ∈ stages.head?, ∀ stage ∈ stages,
    AgreesTo first.found.start sql stage.next.sql
  /-- The text is what it was after an earlier stage, up to the match of that stage. -/
  kept : stages.Pairwise fun a b => AgreesTo a.found.start a.next.sql b.next.sql

/-- Whatever passes a rule makes on a script, they leave alone what stands before the matches they
have come to; and if the rule can be applied, passes lead to the text it gives, in which it finds no
further match. -/
theorem settled_of_passes (rule : CompiledRule) (sql : Text) :
    (∀ stages, rule.Passes ⟨sql, 0⟩ stages → rule.Settled sql stages) ∧
    ∀ out, rule.apply sql = .ok out → ∃ stages, rule.Passes ⟨sql, 0⟩ stages ∧
      (lastState ⟨sql, 0⟩ stages).sql = out ∧
      rule.step (lastState ⟨sql, 0⟩ stages) = .ok none := by
  refine ⟨fun stages h => ⟨?_, fun hne => ?_, ?_, h.pairwise_agreesTo⟩, fun out h => ?_⟩
  · exact h.pairwise_start.imp fun hle => Nat.le_trans (Nat.le_add_right _ _) hle
  · have hadvance : rule.advance = 1 := by
      rcases rule.advance_cases with ⟨hnil, -⟩ | ⟨-, hadvance⟩
      · exact absurd hnil hne
      · exact hadvance
    refine h.pairwise_start.imp fun hle => ?_
    omega
  · cases h with
    | nil => simp
    | cons hreplaces hpasses =>
      rintro first ⟨⟩ stage hmem
      have hagrees := hreplaces.agreesTo
      rcases List.mem_cons.1 hmem with rfl | hmem
      · exact hagrees
      · have hbehind := hreplaces.behind.mono (Nat.le_add_right _ _)
        exact hagrees.trans (hpasses.agreesTo hbehind hagrees.isPlace stage hmem)
  · exact exists_passes_of_apply h

end Run

/-- Two calls that are replaced one after the other. -/
theorem settled_of_passes_calls :
    today.Settled "SELECT GETDATE(), GETDATE()".toList
      [⟨⟨7, 16, 1, []⟩, ⟨"SELECT CURRENT_DATE, GETDATE()".toList, 2⟩⟩,
        ⟨⟨21, 30, 3, []⟩, ⟨"SELECT CURRENT_DATE, CURRENT_DATE".toList, 4⟩⟩] ∧
    (today.apply "SELECT GETDATE(), GETDATE()".toList).toOption =
      some "SELECT CURRENT_DATE, CURRENT_DATE".toList := by
  refine ⟨(settled_of_passes today _).1 _ (.cons ⟨eq_ok_of_toOption ?_, eq_ok_of_toOption ?_⟩
    (.cons ⟨eq_ok_of_toOption ?_, eq_ok_of_toOption ?_⟩ (.nil _))), ?_⟩
  all_goals decide +kernel

end CompiledRule

end SqlScript
