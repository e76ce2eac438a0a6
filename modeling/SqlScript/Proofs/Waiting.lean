import SqlScript.Proofs.GroupFold
import SqlScript.Proofs.SpanTruth

/-!
# Groups that wait to be folded

While the groups of a condition are folded, only those whose turn has not come need to be true to
the text : a group that was folded keeps a span that is too long, and the span of its opening
parenthesis begins with a digit. So the invariant is about the spans from the next index on. They
are truthful, and none of them lies inside an earlier one (`SpanSet.Waiting`), since spans are
listed in the order in which they close.

One step puts a digit in the place of an opening parenthesis, which belongs to no later span
(`SpanSet.Truthful.replace`), and splices the rest of the group away (`foldGroup_waiting`). Hence
every group that is visited and valid still runs from a parenthesis to a parenthesis
(`exists_groups_reach`).
-/

namespace SqlScript

open List Text

variable {later : SpanSet} {t : Text}

/-- The text between the delimiters of a span, if it stands in the text from the opening to the
closing one. -/
structure Span.Encloses (opening closing : Char) (t : Text) (span : Span) (body : Text) : Prop where
  whole : t.slice? span.start span.stop = some (opening :: (body ++ [closing]))
  inner : t.slice? span.inner.start span.inner.stop = some body

/-- A span with delimiters of one byte each has its body between them. -/
theorem Span.encloses_of_slice? {opening closing : Char} {body : Text} {span : Span}
    (hopening : opening.utf8Size = 1) (hclosing : closing.utf8Size = 1)
    (h : t.slice? span.start span.stop = some (opening :: (body ++ [closing]))) :
    span.Encloses opening closing t body := by
  refine ⟨h, ?_⟩
  obtain ⟨a, b, rfl, ha, hb⟩ := slice?_eq_some_iff.1 h
  simp only [byteSize_cons, byteSize_append, byteSize_nil, hopening, hclosing] at hb
  refine slice?_eq_some_iff.2 ⟨a ++ [opening], closing :: b, by simp, ?_, ?_⟩
  · simp [Span.inner, ha, hopening]
  · simp only [Span.inner, byteSize_append, byteSize_cons, byteSize_nil, hopening]
    omega

namespace SpanSet

/-- The valid spans are truthful, and none lies inside an earlier one. -/
structure Waiting (opening closing : Char) (t : Text) (spans : SpanSet) : Prop where
  truthful : spans.Truthful opening closing t
  ordered : spans.Pairwise fun a b => a.valid = true → b.valid = true →
    b.Around ⟨a.start, a.stop⟩ ∨ a.Beside ⟨b.start, b.stop⟩

variable {opening closing : Char} {spans : SpanSet}

theorem Truthful.sublist (h : spans.Truthful opening closing t)
    (hsub : later.Sublist spans) : later.Truthful opening closing t :=
  ⟨fun span hmem => h.delimited span (hsub.subset hmem), h.nested.sublist hsub⟩

theorem Waiting.sublist (h : spans.Waiting opening closing t)
    (hsub : later.Sublist spans) : later.Waiting opening closing t :=
  ⟨h.truthful.sublist hsub, h.ordered.sublist hsub⟩

/-- Spans are found in the order in which they close. -/
theorem waiting_find (opening closing : Char) (t : Text) :
    (find opening closing t).Waiting opening closing t := by
  refine ⟨truthful_find opening closing t, ?_⟩
  rw [Nest.find_eq_spans]
  exact (Nest.pairwise_closing _ _ _ _).imp fun h _ _ => h

/-- Replacing a character that is no delimiter of a valid span keeps the spans truthful. -/
theorem Truthful.replace {c d : Char} {before after : Text}
    (h : spans.Truthful opening closing (before ++ ([c] ++ after)))
    (hsize : c.utf8Size = d.utf8Size) (hspans : ∀ span ∈ spans, span.valid →
      span.Beside ⟨before.byteSize, before.byteSize + c.utf8Size⟩ ∨
        span.start < before.byteSize ∧ before.byteSize + c.utf8Size < span.stop) :
    spans.Truthful opening closing (before ++ ([d] ++ after)) := by
  refine ⟨fun span hmem hv => ?_, h.nested⟩
  obtain ⟨body, hbody⟩ := h.delimited span hmem hv
  have hplace : ∀ x, (before ++ [x]).byteSize = before.byteSize + x.utf8Size := by simp
  rcases hspans span hmem hv with (hstop | hstart) | ⟨hstart, hstop⟩
  · refine ⟨body, ?_⟩
    rw [slice?_append_left _ _ hstop] at hbody ⊢
    exact hbody
  · refine ⟨body, ?_⟩
    rw [← append_assoc] at hbody ⊢
    refine slice?_shifted hbody ?_ ?_ ?_
    · rw [hplace]
      exact hstart
    · rw [hplace, hplace, hsize]
    · rw [hplace, hplace, hsize]
  · -- the character stands between the delimiters of the span
    obtain ⟨lead, trail, -, -, hm, hlead, htrail, hother⟩ :=
      slice?_around hbody (Nat.le_of_lt hstart) (by rw [hplace]; omega)
    rw [hplace] at htrail
    obtain ⟨body', hbody'⟩ := exists_delimited_of_append hm
      (by rintro rfl; rw [byteSize_nil] at hlead; omega)
      (by rintro rfl; rw [byteSize_nil] at htrail; omega) [d]
    exact ⟨body', by rw [hother [d] span.stop (by rw [hplace, hplace, hsize]), hbody']⟩

/-- A splice does to the text the same whatever spans are moved along. -/
theorem splice_eq_ok {t' : Text} {spans' : SpanSet} {target source : Extent}
    (h : spans.splice t target source = .ok (t', spans')) (others : SpanSet) :
    others.splice t target source = .ok (t', others.map (Span.afterSplice target source)) ∧
      spans' = spans.map (Span.afterSplice target source) := by
  obtain ⟨part, hpart, h⟩ := exists_of_bind_eq_ok h
  obtain ⟨before, hbefore, h⟩ := exists_of_bind_eq_ok h
  obtain ⟨after, hafter, h⟩ := exists_of_bind_eq_ok h
  cases h
  refine ⟨?_, rfl⟩
  rw [splice, hpart, hbefore, hafter]
  rfl

/-- Aligned splices keep later spans outside of earlier ones. -/
theorem Waiting.splice {target source : Extent} (h : spans.Waiting opening closing t)
    (ha : spans.Aligned t target source) : ∃ t',
      spans.splice t target source = .ok (t', spans.map (Span.afterSplice target source)) ∧
      SpanSet.Waiting opening closing t' (spans.map (Span.afterSplice target source)) := by
  obtain ⟨t', spans', hsplice, hspliced⟩ := h.truthful.splice ha
  obtain rfl := (splice_eq_ok hsplice spans).2
  refine ⟨t', hsplice, hspliced.truthful, ?_⟩
  refine pairwise_map.2 (h.ordered.imp_of_mem fun {a b} hmema hmemb hab hva' hvb' => ?_)
  have hva := Span.valid_of_afterSplice hva'
  have hvb := Span.valid_of_afterSplice hvb'
  have hlta := h.truthful.start_lt_stop hmema hva
  have hltb := h.truthful.start_lt_stop hmemb hvb
  have hin := ha.within
  rcases ea : a.afterSplice target source with ⟨starta, stopa, va⟩
  rcases eb : b.afterSplice target source with ⟨startb, stopb, vb⟩
  rw [ea] at hva'
  rw [eb] at hvb'
  subst hva' hvb'
  have casesa := ha.survivor_cases hmema hva hlta ea
  have casesb := ha.survivor_cases hmemb hvb hltb eb
  have hordered := hab hva hvb
  simp only [Span.Around, Span.Beside, Span.inner, Extent.size] at hordered casesa casesb ⊢
  clear hab ea eb
  rcases casesa with h1 | h1 | h1 | h1 <;> rcases casesb with h2 | h2 | h2 | h2 <;> omega

end SpanSet

namespace Condition

/-- Putting a digit in the place of a group keeps the groups after it waiting. -/
theorem waiting_of_fold {before body after : Text} (value : Bool)
    (h : later.Waiting '(' ')' (before ++ ('(' :: (body ++ ')' :: after))))
    (hlater : ∀ span ∈ later, span.valid →
      span.Around ⟨before.byteSize, before.byteSize + body.byteSize + 2⟩ ∨
        span.Beside ⟨before.byteSize, before.byteSize + body.byteSize + 2⟩) : ∃ t',
      later.splice (before ++ digit value :: (body ++ ')' :: after))
          ⟨before.byteSize, before.byteSize + body.byteSize + 2⟩
          ⟨before.byteSize, before.byteSize + 1⟩ =
        .ok (t', later.map (Span.afterSplice ⟨before.byteSize, before.byteSize + body.byteSize + 2⟩
          ⟨before.byteSize, before.byteSize + 1⟩)) ∧
      SpanSet.Waiting '(' ')' t' (later.map (Span.afterSplice
        ⟨before.byteSize, before.byteSize + body.byteSize + 2⟩
        ⟨before.byteSize, before.byteSize + 1⟩)) := by
  simp only [Span.Around, Span.Beside, Span.inner] at hlater
  have htruthful :
      later.Truthful '(' ')' (before ++ ([digit value] ++ (body ++ ')' :: after))) := by
    refine h.truthful.replace (by simp) fun span hmem hv => ?_
    have hplace := hlater span hmem hv
    simp only [Span.Beside, utf8Size_openParen]
    omega
  refine SpanSet.Waiting.splice ⟨htruthful, h.ordered⟩ ⟨by simp only; omega, ?_, ?_, ?_⟩
  · simp only [forall_mem_cons, not_mem_nil, false_implies, implies_true, and_true, isPlace_iff]
    refine ⟨⟨before, _, rfl, rfl⟩, ⟨before, _, rfl, rfl⟩,
      ⟨before ++ [digit value], body ++ ')' :: after, by simp, by simp⟩,
      ⟨before ++ digit value :: (body ++ [')']), after, by simp, ?_⟩⟩
    simp
    omega
  · intro span hmem hv
    have hplace := hlater span hmem hv
    simp only [Span.Around, Span.Beside, Span.Within, Span.inner]
    omega
  · intro span hmem hv hin
    have hplace := hlater span hmem hv
    rw [Extent.contains_iff] at hin
    simp only at hin ⊢
    omega

/-- One step leaves the groups after it waiting. -/
theorem foldGroup_waiting {groups : SpanSet} {i : Nat}
    (h : SpanSet.Waiting '(' ')' t (groups.drop i)) (hi : i < groups.length) : ∃ t' groups',
      foldGroup (t, groups) i = .ok (t', groups') ∧ groups'.length = groups.length ∧
      SpanSet.Waiting '(' ')' t' (groups'.drop (i + 1)) := by
  have hdrop : groups.drop i = groups[i] :: groups.drop (i + 1) := drop_eq_getElem_cons hi
  have hget : groups.get i = .ok groups[i] := by
    rw [SpanSet.get, getElem?_eq_getElem hi]
  have hlater : SpanSet.Waiting '(' ')' t (groups.drop (i + 1)) := by
    rw [hdrop] at h
    exact h.sublist (sublist_cons_self _ _)
  generalize groups[i] = group at hdrop hget
  by_cases hv : group.valid
  · obtain ⟨body, hbody⟩ := h.truthful.delimited group (by simp [hdrop]) hv
    have hinner := (Span.encloses_of_slice? rfl rfl hbody).inner
    obtain ⟨before, after, htext, hstart, hstop⟩ := slice?_eq_some_iff.1 hbody
    obtain rfl : t = before ++ '(' :: (body ++ ')' :: after) := by rw [htext]; simp
    have hsize : group.stop = before.byteSize + body.byteSize + 2 := by
      rw [← hstop]
      simp
      omega
    have hto : (before ++ '(' :: (body ++ ')' :: after)).sliceTo group.start = .ok before :=
      sliceTo_append hstart
    have hfrom : (before ++ ['('] ++ (body ++ ')' :: after)).sliceFrom (group.start + 1) =
        .ok (body ++ ')' :: after) :=
      sliceFrom_append (by simp [hstart])
    simp only [append_assoc, singleton_append] at hfrom
    by_cases hin : endsInMembership before
    · refine ⟨_, groups, ?_, rfl, hlater⟩
      simp only [foldGroup, hget, ok_bind, hv, Bool.not_true, Bool.false_eq_true, if_false, hto,
        hin, if_true]
      rfl
    · have hapart : ∀ span ∈ groups.drop (i + 1), span.valid →
          span.Around ⟨before.byteSize, before.byteSize + body.byteSize + 2⟩ ∨
            span.Beside ⟨before.byteSize, before.byteSize + body.byteSize + 2⟩ := by
        intro span hmem hvalid
        have hordered := h.ordered
        rw [hdrop] at hordered
        have hplace := (pairwise_cons.1 hordered).1 span hmem hv hvalid
        simp only [Span.Around, Span.Beside, Span.inner, hsize, ← hstart] at hplace ⊢
        omega
      obtain ⟨t', hsplice, hwaiting⟩ := waiting_of_fold (evalFlat body) hlater hapart
      rw [← hsize, hstart] at hsplice hwaiting
      refine ⟨t', groups.map (Span.afterSplice ⟨group.start, group.stop⟩
        ⟨group.start, group.start + 1⟩), ?_, length_map _, ?_⟩
      · simp only [foldGroup, hget, ok_bind, hv, Bool.not_true, Bool.false_eq_true, if_false, hto,
          hin, slice_eq_ok_iff.2 hinner, hfrom, (SpanSet.splice_eq_ok hsplice groups).1]
      · rwa [map_drop] at hwaiting
  · refine ⟨t, groups, ?_, rfl, hlater⟩
    simp only [foldGroup, hget, ok_bind, hv, Bool.not_false, if_true]
    rfl

/-- Each group of a condition is reached, and if it is still valid, it runs in the text as it is
then from an opening to a closing parenthesis. -/
theorem exists_groups_reach (t : Text) {i : Nat} (hi : i < (SpanSet.find '(' ')' t).length) :
    ∃ t' groups group, (List.range i).foldlM foldGroup (t, SpanSet.find '(' ')' t) =
        .ok (t', groups) ∧ groups.get i = .ok group ∧
      (group.valid → ∃ body, group.Encloses '(' ')' t' body) := by
  have hrun : ∀ n ≤ (SpanSet.find '(' ')' t).length, ∃ t' groups,
      (List.range n).foldlM foldGroup (t, SpanSet.find '(' ')' t) = .ok (t', groups) ∧
      groups.length = (SpanSet.find '(' ')' t).length ∧
      SpanSet.Waiting '(' ')' t' (groups.drop n) := by
    intro n hn
    induction n with
    | zero => exact ⟨t, _, rfl, rfl, SpanSet.waiting_find '(' ')' t⟩
    | succ n ih =>
      obtain ⟨t', groups, hfold, hlength, hwaiting⟩ := ih (by omega)
      obtain ⟨t'', groups', hstep, hlength', hwaiting'⟩ :=
        foldGroup_waiting hwaiting (by omega)
      refine ⟨t'', groups', ?_, by omega, hwaiting'⟩
      rw [range_succ, foldlM_append, hfold]
      simp [hstep]
  obtain ⟨t', groups, hfold, hlength, hwaiting⟩ := hrun i (Nat.le_of_lt hi)
  have hi' : i < groups.length := by omega
  refine ⟨t', groups, groups[i], hfold, ?_, fun hv => ?_⟩
  · rw [SpanSet.get, getElem?_eq_getElem hi']
  · rw [drop_eq_getElem_cons hi'] at hwaiting
    obtain ⟨body, hbody⟩ := hwaiting.truthful.delimited _ mem_cons_self hv
    exact ⟨body, Span.encloses_of_slice? rfl rfl hbody⟩

end Condition

end SqlScript
