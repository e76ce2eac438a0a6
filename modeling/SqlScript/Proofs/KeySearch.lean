import SqlScript.Proofs.Folding
import SqlScript.Proofs.RowSearch

/-!
# Whether a pattern is found

A pattern whose variables have no constraint is looked for by the texts and flags of the tokens
alone. Where the tokens stand matters to what is captured, not to whether there is a match : a
search never fails, and whether it finds something is told by the keys of the tokens
(`exists_findClause`).

The keys of the text of a row are the same at every index, and stay so when the text is put into
small ASCII letters (`Layout.Row.map_key_toLowerAscii`), as it is when it is taken as a pattern. So
the pattern of a row is the same at every index (`Layout.Row.exists_compile`).
-/

namespace SqlScript

open List Pattern Token

/-- The block is no variable with a constraint. -/
def PatternBlock.Unconstrained : PatternBlock → Prop
  | .literal _ => True
  | .placeholder _ constraint => constraint = none

instance PatternBlock.decidableUnconstrained :
    (block : PatternBlock) → Decidable block.Unconstrained
  | .literal _ => inferInstanceAs (Decidable True)
  | .placeholder _ constraint => inferInstanceAs (Decidable (constraint = none))

theorem PatternBlock.unconstrained_ofText (t : Text) : (PatternBlock.ofText t).Unconstrained := by
  unfold ofText
  split
  · exact (rfl : none = none)
  · exact True.intro

namespace Search

/-! ## Matching without places -/

/-- The token without its place. -/
def strip (token : Token) : Token :=
  { token with start := 0, stop := 0 }

theorem boundary?_map_strip (inPatternQuote : Bool) (text : Text) (opened : List Char)
    (run : List Token) : boundary? inPatternQuote text opened (run.map strip) =
      (boundary? inPatternQuote text opened run).map fun found =>
        (strip found.1, found.2.map strip) := by
  induction run generalizing opened with
  | nil => rfl
  | cons token run ih =>
    have his : (strip token).is text = token.is text := rfl
    have htext : (strip token).text = token.text := rfl
    have hafter : openAfter inPatternQuote opened (strip token) =
        openAfter inPatternQuote opened token := rfl
    rw [map_cons, boundary?, boundary?, his, htext, hafter, ih]
    split
    · rfl
    · split <;> rfl

section Boundary

variable {inPatternQuote : Bool} {text : Text} {opened : List Char} {run later : List Token}
  {boundary : Token}

/-- The tokens from the boundary on are the last ones, and the first of them is the literal. -/
theorem exists_append_of_boundary?
    (h : boundary? inPatternQuote text opened run = some (boundary, later)) :
    ∃ segment, run = segment ++ boundary :: later ∧ boundary.is text := by
  induction run generalizing opened with
  | nil => simp [boundary?] at h
  | cons token run ih =>
    simp only [boundary?] at h
    split at h
    · rename_i hstop
      cases h
      exact ⟨[], rfl, (Bool.and_eq_true_iff.1 hstop).2⟩
    · split at h
      · simp at h
      · obtain ⟨segment, rfl, his⟩ := ih h
        exact ⟨token :: segment, rfl, his⟩

theorem is_of_boundary? (h : boundary? inPatternQuote text opened run = some (boundary, later)) :
    boundary.is text :=
  (exists_append_of_boundary? h).choose_spec.2

end Boundary

/-- Whether the blocks match the tokens, when a quote of the pattern is open or not. -/
def succeeds : Bool → List PatternBlock → List Token → Bool
  | _, [], _ => true
  | inPatternQuote, .literal text :: blocks, token :: later =>
    token.is text && succeeds (inPatternQuote != token.isQuote) blocks later
  | inPatternQuote, .placeholder _ _ :: .literal text :: blocks, run =>
    match boundary? inPatternQuote text [] run with
    | none => false
    | some (token, later) => succeeds (inPatternQuote != token.isQuote) blocks later
  | _, _, _ => false

theorem succeeds_map_strip : ∀ (inPatternQuote : Bool) (blocks : List PatternBlock)
    (run : List Token),
    succeeds inPatternQuote blocks (run.map strip) = succeeds inPatternQuote blocks run
  | _, [], _ => by simp only [succeeds]
  | _, .literal _ :: _, [] => rfl
  | inPatternQuote, .literal text :: blocks, token :: later => by
    rw [map_cons, succeeds, succeeds, succeeds_map_strip]
    rfl
  | inPatternQuote, .placeholder _ _ :: .literal text :: blocks, run => by
    rw [succeeds, succeeds, boundary?_map_strip]
    cases boundary? inPatternQuote text [] run with
    | none => rfl
    | some found =>
      obtain ⟨token, later⟩ := found
      exact succeeds_map_strip _ blocks later
  | _, [.placeholder _ _], _ => by simp only [succeeds]
  | _, .placeholder _ _ :: .placeholder _ _ :: _, _ => by simp only [succeeds]

/-- An attempt to match never fails, and succeeds as the tokens without their places tell. -/
theorem exists_matchBlocks_of_unconstrained {sql : Text} :
    ∀ {blocks : List PatternBlock} {attempt : Attempt} {run : List Token},
      (∀ block ∈ blocks, block.Unconstrained) → Laid sql run →
      attempt.captureStart = startOf sql run →
      ∃ result, matchBlocks sql blocks attempt run = .ok result ∧
        result.isSome = succeeds attempt.inPatternQuote blocks run
  | [], attempt, run, _, _, _ => ⟨some attempt, rfl, by simp only [succeeds]; rfl⟩
  | .literal text :: blocks, attempt, [], _, _, _ => ⟨none, rfl, rfl⟩
  | .literal text :: blocks, attempt, token :: later, hfree, hlaid, _ => by
    rw [forall_mem_cons] at hfree
    rw [matchBlocks, succeeds]
    cases his : token.is text with
    | false => exact ⟨none, rfl, rfl⟩
    | true =>
      exact exists_matchBlocks_of_unconstrained hfree.2
        (hlaid.sublist (sublist_cons_self token later)) rfl
  | .placeholder name constraint :: .literal text :: blocks, attempt, run, hfree, hlaid,
    hstart => by
    simp only [forall_mem_cons] at hfree
    obtain ⟨rfl, -, hfree⟩ := hfree
    rw [succeeds]
    cases hboundary : boundary? attempt.inPatternQuote text [] run with
    | none => exact ⟨none, by simp [matchBlocks, hboundary], rfl⟩
    | some found =>
      obtain ⟨boundary, later⟩ := found
      obtain ⟨segment, hrun, -⟩ := exists_append_of_boundary? hboundary
      -- whether a quote of the pattern is open plays no part in what is cut out
      have hready : Ready sql { attempt with inPatternQuote := false }
          (segment ++ boundary :: later) := by
        rw [← hrun]
        exact ⟨hlaid, hstart, rfl⟩
      obtain ⟨first, value, -, -, hslice⟩ := hready.exists_slice
      rw [matchBlocks_capture hboundary hslice]
      refine exists_matchBlocks_of_unconstrained hfree (hlaid.sublist ?_) rfl
      rw [hrun]
      exact sublist_append_cons segment boundary later
  | [.placeholder name constraint], attempt, run, hfree, _, _ => by
    obtain rfl : constraint = none := hfree _ mem_cons_self
    exact ⟨none, rfl, by simp only [succeeds]; rfl⟩
  | .placeholder name constraint :: .placeholder _ _ :: blocks, attempt, run, hfree, _, _ => by
    obtain rfl : constraint = none := hfree _ mem_cons_self
    exact ⟨none, rfl, by simp only [succeeds]; rfl⟩

/-- Whether the blocks match from the first of the tokens on : they start with a literal, and the
token stands outside of quotes. -/
def startsAt (blocks : List PatternBlock) (token : Token) (later : List Token) : Bool :=
  blocks.head?.any (!·.isPlaceholder) && !token.inQuotes && succeeds false blocks (token :: later)

/-- Whether the blocks match at one of the tokens. -/
def finds (blocks : List PatternBlock) : List Token → Bool
  | [] => false
  | token :: later => startsAt blocks token later || finds blocks later

theorem finds_map_strip (blocks : List PatternBlock) (run : List Token) :
    finds blocks (run.map strip) = finds blocks run := by
  induction run with
  | nil => rfl
  | cons token later ih =>
    have hsucceeds := succeeds_map_strip false blocks (token :: later)
    rw [map_cons] at hsucceeds
    rw [map_cons, finds, finds, ih, startsAt, startsAt, hsucceeds]
    rfl

theorem exists_matchAt_of_unconstrained {sql : Text} {blocks : List PatternBlock}
    (hfree : ∀ block ∈ blocks, block.Unconstrained) {token : Token} {later : List Token}
    (hlaid : Laid sql (token :: later)) : ∃ result, matchAt sql blocks token later = .ok result ∧
      result.isSome = startsAt blocks token later := by
  cases blocks with
  | nil => exact ⟨none, rfl, rfl⟩
  | cons block blocks =>
    cases block with
    | placeholder name constraint =>
      obtain rfl : constraint = none := hfree _ mem_cons_self
      exact ⟨none, rfl, rfl⟩
    | literal text =>
      cases hquotes : token.inQuotes with
      | true => exact ⟨none, by simp [matchAt, hquotes], by simp [startsAt, hquotes]⟩
      | false =>
        have hstart : (attemptAt token).captureStart = startOf sql (token :: later) := rfl
        obtain ⟨result, hresult, hsome⟩ := exists_matchBlocks_of_unconstrained hfree hlaid hstart
        refine ⟨result, (matchAt_of_outside text blocks hquotes).trans hresult, ?_⟩
        rw [hsome, startsAt, hquotes]
        rfl

theorem exists_firstFrom_of_unconstrained {sql : Text} {blocks : List PatternBlock}
    (hfree : ∀ block ∈ blocks, block.Unconstrained) (index : Nat) {run : List Token}
    (hlaid : Laid sql run) : ∃ result, firstFrom sql blocks index run = .ok result ∧
      result.isSome = finds blocks run := by
  induction run generalizing index with
  | nil => exact ⟨none, rfl, rfl⟩
  | cons token later ih =>
    obtain ⟨attempt, hattempt, hsome⟩ := exists_matchAt_of_unconstrained hfree hlaid
    rw [firstFrom, hattempt, ok_bind, finds, ← hsome]
    cases attempt with
    | some attempt => exact ⟨_, rfl, rfl⟩
    | none =>
      simpa using ih (index + 1) (hlaid.sublist (sublist_cons_self token later))

end Search

/-- A search for a pattern without constraints never fails, and whether it finds something is told
by the keys of the tokens. -/
theorem exists_findClause (sql : Text) {pattern : Pattern}
    (hfree : ∀ block ∈ pattern.blocks, block.Unconstrained) :
    ∃ result, BigQuery.findClause sql pattern 0 = .ok result ∧
      result.isSome = Search.finds pattern.blocks (((tokens sql).map key).map ofKey) := by
  obtain ⟨result, hresult, hsome⟩ :=
    Search.exists_firstFrom_of_unconstrained hfree 0 (laid_tokens sql)
  refine ⟨result, hresult, ?_⟩
  rw [hsome, ← Search.finds_map_strip, map_map]
  rfl

/-! ## Rows as texts and as patterns -/

/-- Without a lone `@` every token of a pattern is a block of its own. -/
theorem blocksOf_of_forall (source : Text) {run : List Token}
    (h : ∀ token ∈ run, token.text ≠ ['@']) :
    blocksOf source run = .ok (run.map fun token => .ofText token.text) := by
  induction run with
  | nil => rw [blocksOf]; rfl
  | cons token run ih =>
    rw [forall_mem_cons] at h
    cases run with
    | nil => rw [blocksOf]; rfl
    | cons next run =>
      have hfree : (token.text == ['@'] && next.text == ['(']) = false := by simp [h.1]
      rw [blocksOf, if_neg (by rw [hfree]; simp), ih h.2, ok_bind]
      rfl

namespace Layout

variable {σ : Type}

namespace Row

theorem map_key_tokens_text_zero {row : Row σ} (h : Legible row) (s : σ) :
    (SqlScript.tokens (text s row)).map key = keys row :=
  map_key_tokens_text h s .nil

/-- Whether something is found in the text of a row is told by its keys. -/
theorem exists_findClause_text {row : Row σ} (h : Legible row) (s : σ) {pattern : Pattern}
    (hfree : ∀ block ∈ pattern.blocks, block.Unconstrained) :
    ∃ found, BigQuery.findClause (text s row) pattern 0 = .ok found ∧
      found.isSome = Search.finds pattern.blocks ((keys row).map ofKey) := by
  obtain ⟨found, hfound, hsome⟩ := exists_findClause (text s row) hfree
  exact ⟨found, hfound, map_key_tokens_text_zero h s ▸ hsome⟩

/-- The blocks of the tokens with the keys, in small ASCII letters. -/
def blocks (keys : List (Text × Bool)) : List PatternBlock :=
  keys.map fun key => .ofText key.1.toLowerAscii

theorem blocksOf_text (hmany : ¬ Subsingleton σ) {row : Row σ} (hlegible : Legible row) (s : σ) :
    blocksOf (text s row) (SqlScript.tokens (text s row).toLowerAscii) =
      .ok (blocks (keys row)) := by
  have hkeys := map_key_tokens_toLowerAscii (text s row)
  rw [tokens_text_zero hlegible, map_key_tokens] at hkeys
  rw [blocksOf_of_forall]
  · have hblocks : (fun token : Token => PatternBlock.ofText token.text) =
        (fun key : Text × Bool => PatternBlock.ofText key.1) ∘ key := rfl
    rw [hblocks, ← map_map, hkeys, map_map]
    rfl
  · intro token hmem hname
    have hkey : token.key ∈ (keys row).map (Prod.map Text.toLowerAscii id) := by
      rw [← hkeys]
      exact mem_map_of_mem hmem
    obtain ⟨key, hkey, hlower⟩ := mem_map.1 hkey
    obtain ⟨cell, -, hcell⟩ := mem_flatMap.1 hkey
    refine cell.named.resolve_left hmany key hcell ?_
    have htext : key.1.toLowerAscii = ['@'] := (congrArg Prod.fst hlower).trans hname
    obtain ⟨c, hc, hlone⟩ := map_eq_singleton_iff.1 htext
    rw [hc, eq_of_toLower_eq (by decide) hlone]

/-- Where there are several indices, a row is the same pattern at each of them, or at none of them
one. -/
theorem exists_compile (hmany : ¬ Subsingleton σ) {row : Row σ} (hlegible : Legible row) :
    (∃ blocks, (∀ block ∈ blocks, block.Unconstrained) ∧
      ∀ s, compile (text s row) = .ok ⟨text s row, blocks⟩) ∨
      ∀ s, ∃ error, compile (text s row) = .error error := by
  have hunconstrained : ∀ block ∈ blocks (keys row), block.Unconstrained := by
    intro block hblock
    obtain ⟨key, -, rfl⟩ := mem_map.1 hblock
    exact PatternBlock.unconstrained_ofText _
  have hcompile : ∀ s, compile (text s row) =
      if keys row = [] then .error (.invalidPattern (text s row) .empty)
      else if (blocks (keys row)).head?.any PatternBlock.isFree ||
          (blocks (keys row)).getLast?.any PatternBlock.isFree then
        .error (.invalidPattern (text s row) .freeAtEdge)
      else if hasFreeBeforeVariable (blocks (keys row)) then
        .error (.invalidPattern (text s row) .freeBeforeVariable)
      else .ok ⟨text s row, blocks (keys row)⟩ := by
    intro s
    have hkeys := map_key_tokens_toLowerAscii (text s row)
    rw [tokens_text_zero hlegible, map_key_tokens] at hkeys
    have hempty : SqlScript.tokens (text s row).toLowerAscii = [] ↔ keys row = [] := by
      rw [← map_eq_nil_iff (f := key), hkeys, map_eq_nil_iff]
    rw [compile]
    split
    · rename_i hnil
      rw [if_pos (hempty.1 hnil)]
    · rename_i hne
      rw [if_neg fun hnil => hne (hempty.2 hnil), blocksOf_text hmany hlegible s, ok_bind]
      rfl
  by_cases hempty : keys row = []
  · exact .inr fun s => ⟨_, by rw [hcompile, if_pos hempty]⟩
  · simp only [if_neg hempty] at hcompile
    split at hcompile
    · exact .inr fun s => ⟨_, hcompile s⟩
    · split at hcompile
      · exact .inr fun s => ⟨_, hcompile s⟩
      · exact .inl ⟨_, hunconstrained, hcompile⟩

end Row

end Layout

end SqlScript
