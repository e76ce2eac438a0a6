import SqlScript.Proofs.Margin
import SqlScript.Template.Condition

/-!
# Folding the groups of a condition

A condition of the extended grammar is evaluated by putting digits in the place of its groups, from
the inside out, in one text whose spans are moved along. `Condition.fold` says what comes out, by
recursion on the nest of the condition : a group is replaced by the value of its folded inside,
unless it follows the word `in`.

`Folds` is the invariant of the run : the groups of a nest that stands anywhere in a text are folded
in order while the groups after it and around it wait. It holds of every nest (`folds`), so the
value of a condition is that of its folded text (`evalExtended_of_spans`). Every text is a nest, so
no condition fails (`exists_eval_eq_ok`).
-/

namespace SqlScript

open List Text Nest SpanSet

namespace Condition

@[simp] theorem utf8Size_digit (value : Bool) : (digit value).utf8Size = 1 := by
  cases value <;> rfl

@[simp] theorem utf8Size_openParen : '('.utf8Size = 1 :=
  rfl

@[simp] theorem utf8Size_closeParen : ')'.utf8Size = 1 :=
  rfl

/-! ## The folded text -/

/-- What a group with the folded inside `body` becomes when `before` stands before it. -/
def foldedGroup (before body : Text) : Text :=
  if endsInMembership before then '(' :: (body ++ [')']) else [digit (evalFlat body)]

/-- The text of a nest with its groups folded, when `before` stands before it. -/
def fold (before : Text) : Nest → Text
  | .nil => []
  | .char c rest => c :: fold (before ++ [c]) rest
  | .group inner rest =>
    let shown := foldedGroup before (fold (before ++ ['(']) inner)
    shown ++ fold (before ++ shown) rest

theorem byteSize_foldedGroup_le (before body : Text) :
    (foldedGroup before body).byteSize ≤ body.byteSize + 2 := by
  unfold foldedGroup
  split
  · simp
    omega
  · simp

theorem byteSize_text_group (inner rest : Nest) :
    ((group inner rest).text '(' ')').byteSize =
      (inner.text '(' ')').byteSize + 2 + (rest.text '(' ')').byteSize := by
  simp only [text, byteSize_cons, byteSize_append, utf8Size_openParen, utf8Size_closeParen]
  omega

theorem byteSize_fold_le (before : Text) (N : Nest) :
    (fold before N).byteSize ≤ (N.text '(' ')').byteSize := by
  induction N generalizing before with
  | nil => simp [fold]
  | char c rest ih =>
    have := ih (before ++ [c])
    simp only [fold, text, byteSize_cons]
    omega
  | group inner rest ihi ihr =>
    have hinner := ihi (before ++ ['('])
    have hshown := byteSize_foldedGroup_le before (fold (before ++ ['(']) inner)
    have hrest := ihr (before ++ foldedGroup before (fold (before ++ ['(']) inner))
    rw [byteSize_text_group]
    simp only [fold, byteSize_append]
    omega

/-! ## Runs -/

/-- The steps at `count` groups from the one with index `first` on lead from `state` to `state'`. -/
def Runs (first count : Nat) (state state' : Text × SpanSet) : Prop :=
  (List.range' first count).foldlM foldGroup state = .ok state'

theorem runs_zero (first : Nat) (state : Text × SpanSet) : Runs first 0 state state :=
  rfl

theorem Runs.append {first m n : Nat} {state state' state'' : Text × SpanSet}
    (h : Runs first m state state') (h' : Runs (first + m) n state' state'') :
    Runs first (m + n) state state'' := by
  unfold Runs at *
  rw [← range'_append_1, foldlM_append, h]
  exact h'

/-- The groups of the nest are folded, wherever it stands in a text and whatever waits. -/
def Folds (N : Nest) : Prop :=
  ∀ (before after : Text) (done later : SpanSet),
    later.Clear before.byteSize (before.byteSize + (N.text '(' ')').byteSize) →
    ∃ done' : SpanSet, done'.length = done.length + N.count ∧
      Runs done.length N.count
        (before ++ (N.text '(' ')' ++ after), done ++ (N.spans '(' ')' before.byteSize ++ later))
        (before ++ (fold before N ++ after), done' ++ later.map
          (Span.drawIn (before.byteSize + (N.text '(' ')').byteSize)
            ((N.text '(' ')').byteSize - (fold before N).byteSize)))

/-- The step at a group whose inside has been folded. -/
theorem runs_foldedGroup (before body after : Text) (done later : SpanSet)
    (hlater : later.Clear before.byteSize (before.byteSize + body.byteSize + 2)) :
    ∃ done' : SpanSet, done'.length = done.length + 1 ∧ Runs done.length 1
        (before ++ ('(' :: (body ++ ')' :: after)),
          done ++ ⟨before.byteSize, before.byteSize + body.byteSize + 2, true⟩ :: later)
        (before ++ (foldedGroup before body ++ after), done' ++ later.map
          (Span.drawIn (before.byteSize + body.byteSize + 2)
            (body.byteSize + 2 - (foldedGroup before body).byteSize))) := by
  have hto : (before ++ ('(' :: (body ++ ')' :: after))).sliceTo before.byteSize = .ok before :=
    sliceTo_append rfl
  have hbody : (before ++ ['('] ++ (body ++ ')' :: after)).slice (before.byteSize + 1)
      (before.byteSize + body.byteSize + 2 - 1) = .ok body :=
    slice_append (by simp) (by simp; omega)
  have hfrom : (before ++ ['('] ++ (body ++ ')' :: after)).sliceFrom (before.byteSize + 1) =
      .ok (body ++ ')' :: after) :=
    sliceFrom_append (by simp)
  simp only [append_assoc, singleton_append] at hbody hfrom
  unfold foldedGroup Runs
  by_cases hin : endsInMembership before
  · refine ⟨done ++ [⟨before.byteSize, before.byteSize + body.byteSize + 2, true⟩], by simp, ?_⟩
    have hloss : body.byteSize + 2 - (1 + (body.byteSize + 1)) = 0 := by
      omega
    simp [foldGroup, hto, hin, hloss]
    rfl
  · have hloss : Extent.size ⟨before.byteSize, before.byteSize + body.byteSize + 2⟩ -
        Extent.size ⟨before.byteSize, before.byteSize + 1⟩ = body.byteSize + 2 - 1 := by
      simp only [Extent.size]
      omega
    obtain ⟨done', hlength, hsplice⟩ : ∃ done' : SpanSet, done'.length = done.length + 1 ∧
        splice
          (done ++ [⟨before.byteSize, before.byteSize + body.byteSize + 2, true⟩] ++ later)
          (before ++ ([] ++ ([digit (evalFlat body)] ++ (body ++ [')'] ++ after))))
          ⟨before.byteSize, before.byteSize + body.byteSize + 2⟩
          ⟨before.byteSize, before.byteSize + 1⟩ =
        .ok (before ++ ([digit (evalFlat body)] ++ after), done' ++ later.map (Span.drawIn
          (before.byteSize + body.byteSize + 2) (body.byteSize + 2 - 1))) :=
      ⟨_, by simp, hloss ▸ Clear.splice_append hlater _ rfl rfl (by simp)
        (by simp; omega)⟩
    refine ⟨done', hlength, ?_⟩
    simp only [append_assoc, singleton_append, nil_append] at hsplice
    simp only [range'_one, foldlM_cons, foldlM_nil, foldGroup,
      get_append_cons, ok_bind, hto, Span.inner, hbody, hfrom, hsplice, hin,
      Bool.not_true, Bool.false_eq_true, if_false, byteSize_cons, byteSize_nil,
      utf8Size_digit, singleton_append]
    rfl

/-- The steps inside a group and at the group itself. -/
theorem Folds.runs_group {inner : Nest} (h : Folds inner) (before after : Text)
    (done later : SpanSet) (hlater : later.Clear before.byteSize
      (before.byteSize + (inner.text '(' ')').byteSize + 2)) :
    ∃ done' : SpanSet, done'.length = done.length + (inner.count + 1) ∧
      Runs done.length (inner.count + 1)
        (before ++ ('(' :: (inner.text '(' ')' ++ ')' :: after)),
          done ++ (inner.spans '(' ')' (before.byteSize + 1) ++
            ⟨before.byteSize, before.byteSize + (inner.text '(' ')').byteSize + 2, true⟩ :: later))
        (before ++ (foldedGroup before (fold (before ++ ['(']) inner) ++ after),
          done' ++ later.map (Span.drawIn (before.byteSize + (inner.text '(' ')').byteSize + 2)
            ((inner.text '(' ')').byteSize + 2 -
              (foldedGroup before (fold (before ++ ['(']) inner)).byteSize))) := by
  have hbody := byteSize_fold_le (before ++ ['(']) inner
  have hshown := byteSize_foldedGroup_le before (fold (before ++ ['(']) inner)
  -- the group waits around its inside
  obtain ⟨done₁, hlength₁, hrun₁⟩ := h (before ++ ['(']) (')' :: after) done
    (⟨before.byteSize, before.byteSize + (inner.text '(' ')').byteSize + 2, true⟩ :: later) (by
      intro span hmem
      rcases mem_cons.1 hmem with rfl | hmem
      · exact fun _ => .inr (by simp; omega)
      · exact hlater.mono (by simp) (by simp; omega) span hmem)
  have hgroup : Span.drawIn ((before ++ ['(']).byteSize + (inner.text '(' ')').byteSize)
      ((inner.text '(' ')').byteSize - (fold (before ++ ['(']) inner).byteSize)
      ⟨before.byteSize, before.byteSize + (inner.text '(' ')').byteSize + 2, true⟩ =
      ⟨before.byteSize, before.byteSize + (fold (before ++ ['(']) inner).byteSize + 2, true⟩ := by
    simp only [Span.drawIn, byteSize_append, byteSize_cons, utf8Size_openParen,
      byteSize_nil, Bool.not_true, Bool.false_eq_true, if_false]
    rw [if_neg (by omega)]
    congr 1
    omega
  rw [map_cons, hgroup] at hrun₁
  -- the group itself
  have hedge : before.byteSize + (fold (before ++ ['(']) inner).byteSize + 2 =
      before.byteSize + (inner.text '(' ')').byteSize + 2 -
        ((inner.text '(' ')').byteSize - (fold (before ++ ['(']) inner).byteSize) := by
    omega
  have hplace : (before ++ ['(']).byteSize = before.byteSize + 1 := by simp
  rw [hplace] at hrun₁
  have hclear : Clear before.byteSize
      (before.byteSize + (fold (before ++ ['(']) inner).byteSize + 2)
      (later.map (Span.drawIn (before.byteSize + 1 + (inner.text '(' ')').byteSize)
        ((inner.text '(' ')').byteSize - (fold (before ++ ['(']) inner).byteSize))) := by
    rw [hedge]
    exact hlater.drawIn (by omega) (by omega) (by omega)
  obtain ⟨done₂, hlength₂, hrun₂⟩ := runs_foldedGroup before (fold (before ++ ['(']) inner) after
    done₁ _ hclear
  rw [hlater.map_drawIn_map_drawIn (by omega) (by omega) (by omega) (by omega) (by omega)] at hrun₂
  refine ⟨done₂, by omega, ?_⟩
  rw [hlength₁] at hrun₂
  simp only [append_assoc, singleton_append] at hrun₁
  have hloss : (inner.text '(' ')').byteSize - (fold (before ++ ['(']) inner).byteSize +
      ((fold (before ++ ['(']) inner).byteSize + 2 -
        (foldedGroup before (fold (before ++ ['(']) inner)).byteSize) =
      (inner.text '(' ')').byteSize + 2 -
        (foldedGroup before (fold (before ++ ['(']) inner)).byteSize := by
    omega
  rw [hloss] at hrun₂
  exact hrun₁.append hrun₂

/-- The groups of every nest are folded. -/
theorem folds (N : Nest) : Folds N := by
  induction N with
  | nil =>
    intro before after done later _
    refine ⟨done, rfl, ?_⟩
    simpa [fold, Nest.text, Nest.spans, Nest.count] using
      runs_zero done.length (before ++ after, done ++ later)
  | char c rest ih =>
    intro before after done later hlater
    obtain ⟨done', hlength, hrun⟩ := ih (before ++ [c]) after done later
      (hlater.mono (by simp) (by simp [Nest.text, Nat.add_assoc]))
    refine ⟨done', hlength, ?_⟩
    have hloss : c.utf8Size + (rest.text '(' ')').byteSize -
        (c.utf8Size + (fold (before ++ [c]) rest).byteSize) =
        (rest.text '(' ')').byteSize - (fold (before ++ [c]) rest).byteSize := by
      omega
    simpa [fold, Nest.text, Nest.spans, Nest.count, Nat.add_assoc, hloss] using hrun
  | group inner rest ihi ihr =>
    intro before after done later hlater
    rw [byteSize_text_group] at *
    have hbody := byteSize_fold_le (before ++ ['(']) inner
    have hshown := byteSize_foldedGroup_le before (fold (before ++ ['(']) inner)
    have hrest := byteSize_fold_le
      (before ++ foldedGroup before (fold (before ++ ['(']) inner)) rest
    have hwait : SpanSet.Clear before.byteSize
        (before.byteSize + (inner.text '(' ')').byteSize + 2)
        (rest.spans '(' ')' (before.byteSize + (inner.text '(' ')').byteSize + 2) ++ later) := by
      intro span hmem
      rcases mem_append.1 hmem with hmem | hmem
      · exact Nest.clear_spans rest (Nat.le_refl _) span hmem
      · exact hlater.mono (Nat.le_refl _) (by omega) span hmem
    obtain ⟨done₁, hlength₁, hrun₁⟩ :=
      ihi.runs_group before (rest.text '(' ')' ++ after) done _ hwait
    rw [map_append, Nest.map_drawIn_spans rest (Nat.le_refl _) (by omega),
      show before.byteSize + (inner.text '(' ')').byteSize + 2 -
        ((inner.text '(' ')').byteSize + 2 -
          (foldedGroup before (fold (before ++ ['(']) inner)).byteSize) =
        (before ++ foldedGroup before (fold (before ++ ['(']) inner)).byteSize by
        rw [byteSize_append]; omega] at hrun₁
    have hplace : (before ++ foldedGroup before (fold (before ++ ['(']) inner)).byteSize =
        before.byteSize + (foldedGroup before (fold (before ++ ['(']) inner)).byteSize :=
      byteSize_append _ _
    have hclear : SpanSet.Clear
        (before ++ foldedGroup before (fold (before ++ ['(']) inner)).byteSize
        ((before ++ foldedGroup before (fold (before ++ ['(']) inner)).byteSize +
          (rest.text '(' ')').byteSize)
        (later.map (Span.drawIn (before.byteSize + (inner.text '(' ')').byteSize + 2)
          ((inner.text '(' ')').byteSize + 2 -
            (foldedGroup before (fold (before ++ ['(']) inner)).byteSize))) :=
      (hlater.drawIn (by omega) (by omega) (by omega)).mono (by omega) (by omega)
    obtain ⟨done₂, hlength₂, hrun₂⟩ := ihr _ after done₁ _ hclear
    rw [hlater.map_drawIn_map_drawIn (by omega) (by omega) (by omega) (by omega) (by omega),
      hlength₁] at hrun₂
    have hcount : (Nest.group inner rest).count = inner.count + 1 + rest.count := rfl
    refine ⟨done₂, by omega, ?_⟩
    have hloss : (inner.text '(' ')').byteSize + 2 + (rest.text '(' ')').byteSize -
        ((foldedGroup before (fold (before ++ ['(']) inner)).byteSize +
          (fold (before ++ foldedGroup before (fold (before ++ ['(']) inner)) rest).byteSize) =
        (inner.text '(' ')').byteSize + 2 -
          (foldedGroup before (fold (before ++ ['(']) inner)).byteSize +
        ((rest.text '(' ')').byteSize -
          (fold (before ++ foldedGroup before (fold (before ++ ['(']) inner)) rest).byteSize) := by
      omega
    simp only [append_assoc] at hrun₁ hrun₂
    have hstop : Nest.stopAfter '(' ')' before.byteSize inner =
        before.byteSize + (inner.text '(' ')').byteSize + 2 := by
      simp only [Nest.stopAfter, utf8Size_openParen, utf8Size_closeParen]
      omega
    have hrun := hrun₁.append hrun₂
    simpa [Nest.text, Nest.spans, Nest.count, fold, hstop, hloss] using hrun

/-! ## The value of a condition -/

/-- The value of a condition is that of its folded text. -/
theorem evalExtended_of_spans {t : Text} {N : Nest} (htext : N.text '(' ')' = t.trim)
    (hspans : find '(' ')' t.trim = N.spans '(' ')' 0) :
    evalExtended t = .ok (evalFlat (fold [] N)) := by
  obtain ⟨done, -, hrun⟩ := folds N [] [] [] [] (fun span hmem => by simp at hmem)
  simp only [Runs, nil_append, append_nil, htext, length_nil, byteSize_nil, map_nil] at hrun
  simp only [evalExtended, hspans, length_spans, range_eq_range', hrun, ok_bind]
  rfl

/-- Every condition has a value. -/
theorem exists_eval_eq_ok (grammar : Grammar) (t : Text) : ∃ value, eval grammar t = .ok value := by
  cases grammar with
  | legacy => exact ⟨_, rfl⟩
  | extended =>
    exact ⟨_, evalExtended_of_spans (text_ofText t.trim) (find_eq_spans t.trim)⟩

end Condition

end SqlScript
