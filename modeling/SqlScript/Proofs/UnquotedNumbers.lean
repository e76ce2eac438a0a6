import SqlScript.Proofs.Uncommented

/-!
# Which quotes are taken off

In a text without comments only lists of quoted numbers lose their quotes. A step on a membership
test either leaves the text as it is, or it takes the quotes off the numbers of one list and keeps
all other tokens, the parentheses and commas of the list among them (`IdList.keys_unquote_step`).

A line comment hides what stands behind it from the walk over the elements. Then a list counts as
one of quoted numbers that is none, and its closing parenthesis ends up in the comment
(`IdList.step_hidden`).
-/

namespace SqlScript.BigQuery.IdList

open Layout Layout.Row

/-- A step on a text without comments takes the quotes off the numbers of a list, or it changes
nothing. -/
theorem keys_unquote_step {sql : Text} {run : List Token} (hstrict : tokenize sql = .ok run)
    (hfree : isCommentFree (chunks sql)) {state next : Progress}
    (hreach : Progress.Reaches step sql state) (hnext : step state = .ok (some next)) :
    ∃ found, findClause state.sql inPattern state.first = .ok (some found) ∧
      (applies state.sql found = .ok false ∧ next.sql = state.sql ∨
        applies state.sql found = .ok true ∧
          ∃ (front old back word number : Text) (numbers : List Text),
            found.start = front.byteSize ∧ found.stop = (front ++ old).byteSize ∧
            state.sql = front ++ old ++ back ∧
            next.sql = front ++
              ("in (".toList ++ (capture found "i").filter (· != '\'') ++ [')']) ++ back ∧
            word.toLowerAscii = "in".toList ∧ (∀ digits ∈ number :: numbers, IsNumber digits) ∧
            state.sql.keys = front.keys ++ (word, false) :: (['('], false) ::
              (listKeys ((number :: numbers).map quoted) ++ ([')'], false) :: back.keys) ∧
            next.sql.keys = front.keys ++ ("in".toList, false) :: (['('], false) ::
              (listKeys (number :: numbers) ++ ([')'], false) :: back.keys)) := by
  obtain ⟨lead, row, hblank, hlegible, rfl⟩ :=
    exists_row (ends_of_tokenize hstrict) hfree
  have hlead : ∀ _ : Unit, Heading lead := fun _ => (filler_of_blank hblank).heading
  obtain ⟨pre, taken, hrow, htakes, hstate, hfind, hdone⟩ := exists_rewrite blocks_inPattern
    (by decide) _ step_unquoteAt hlead (fun pre taken hlegible _ htakes => by
      obtain ⟨new, hnew, htext, -⟩ := exists_unquoteAt hlead pre taken hlegible htakes
      exact ⟨new, hnew, htext⟩) hlegible (.inr inferInstance) hreach hnext
  obtain ⟨new, hrewrite, htext, hcases⟩ := exists_unquoteAt hlead pre taken hrow htakes
  refine ⟨_, hfind, ?_⟩
  rw [hstate] at hdone ⊢
  have hsql := Except.ok.inj (hdone.symm.trans (htext ()))
  rcases hcases with ⟨happlies, rfl⟩ | ⟨happlies, word, number, numbers, hword, hdigits, hold, hnew⟩
  · exact .inl ⟨happlies (), hsql⟩
  · have hne : taken.cells ≠ [] := by
      rintro hnil
      exact absurd hold (by simp [hnil])
    refine .inr ⟨happlies (), ?_⟩
    obtain ⟨back, hback, -, hkeys, hkeys'⟩ := hrewrite.exists_back hne () (hlead ()) hrow
    refine ⟨lead ++ Row.text () pre, Row.body () taken.cells, back, word, number, numbers, rfl, rfl,
      hback, ?_, hword, hdigits, ?_, ?_⟩
    · rw [unquoteAt, happlies (), ok_bind, if_pos rfl, hback, List.append_assoc] at hdone
      exact Except.ok.inj (hdone.symm.trans (Text.replaceSlice_append rfl rfl _))
    · rw [hkeys, hold]
      simp
    · rw [hsql, hkeys', hnew]
      simp

theorem keys_unquote_step_two :
    isCommentFree (chunks "WHERE Person_Id IN ('1', '22') AND a = '--3'".toList) ∧
    ∃ (front old back word number : Text) (numbers : List Text),
      "WHERE Person_Id IN ('1', '22') AND a = '--3'".toList = front ++ old ++ back ∧
      (∀ digits ∈ number :: numbers, IsNumber digits) ∧
      Text.keys "WHERE Person_Id IN ('1', '22') AND a = '--3'".toList = front.keys ++
        (word, false) :: (['('], false) ::
          (listKeys ((number :: numbers).map quoted) ++ ([')'], false) :: back.keys) ∧
      Text.keys "WHERE Person_Id in (1, 22) AND a = '--3'".toList = front.keys ++
        ("in".toList, false) :: (['('], false) ::
          (listKeys (number :: numbers) ++ ([')'], false) :: back.keys) := by
  have hfree : isCommentFree (chunks "WHERE Person_Id IN ('1', '22') AND a = '--3'".toList) := by
    decide +kernel
  have hnext : step ⟨"WHERE Person_Id IN ('1', '22') AND a = '--3'".toList, 0⟩ =
      .ok (some ⟨"WHERE Person_Id in (1, 22) AND a = '--3'".toList, 3⟩) := by
    decide +kernel
  obtain ⟨found, -, hsame | ⟨-, front, old, back, word, number, numbers, -, -, hold, -, -, hdigits,
    hkeys, hkeys'⟩⟩ := keys_unquote_step (tokenize_of_foldl (by decide +kernel)) hfree .refl hnext
  · exact absurd hsame.2 (by decide +kernel)
  · exact ⟨hfree, front, old, back, word, number, numbers, hold, hdigits, hkeys, hkeys'⟩

/-- With a comment in it, a list of other literals loses its quotes and its parenthesis. -/
theorem step_hidden : step ⟨"person_id in ('x' -- c\n);".toList, 0⟩ =
      .ok (some ⟨"person_id in (x -- c);".toList, 2⟩) ∧
    ([')'], false) ∈ Text.keys "person_id in ('x' -- c\n);".toList ∧
    ([')'], false) ∉ Text.keys "person_id in (x -- c);".toList := by
  decide +kernel

end SqlScript.BigQuery.IdList
