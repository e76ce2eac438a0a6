import SqlScript.Proofs.Margin
import SqlScript.Proofs.Neighbours

/-!
# Branches that stay together

Between the parts of a branch stands a mark with blanks around it, and no brace (`Span.Joined`). So
no other span starts or ends there, and a branch that is replaced is not cut through by a span
(`SpanSet.Clears.join`). For the same reason two spans that are joined stay joined when another
branch is replaced : what stands between them lies before that branch, after it, or in the part that
takes its place (`Span.Joined.afterSplice`).

Hence a step never fails. Whatever branches were resolved before, the spans are truthful and the
parts of each branch to come are joined (`Branch.Ready`); so a step does nothing, or makes a splice
of the branch (`Branch.Ready.resolveIn_cases`). One step keeps that (`Branch.Ready.resolveIn`), and
it holds of the branches as they are linked (`Branch.exists_link`). So every branch that is visited
and valid still has its braces (`Branch.exists_branches_reach`).
-/

namespace SqlScript

open List Option Text SpanSet Extent Branch

variable {branch : Branch}

namespace SpanSet

variable {t : Text} {spans : SpanSet}

/-- No valid span is cut through by the ends of the extent. -/
def Clears (spans : SpanSet) (extent : Extent) : Prop :=
  ∀ span ∈ spans, span.valid = true →
    span.Beside extent ∨ span.Within extent ∨ span.Around extent

theorem Truthful.clears {opening closing : Char} (h : spans.Truthful opening closing t) {a : Span}
    (ha : a ∈ spans) (hva : a.valid) : spans.Clears ⟨a.start, a.stop⟩ := by
  intro span hmem hv
  rcases h.eq_or_nested hmem ha hv hva with rfl | hnested
  · exact .inr (.inl ⟨Nat.le_refl _, Nat.le_refl _⟩)
  · simp only [Span.Nested, Span.Beside, Span.Within, Span.Around, Span.inner] at hnested ⊢
    omega

/-- A stretch that ends with a span can be extended to a span joined to it. -/
theorem Clears.join (h : spans.Truthful '\x7b' '\x7d' t) {start : Nat} {a b : Span}
    (hclears : spans.Clears ⟨start, a.stop⟩) (hle : start ≤ a.stop) (hjoined : Span.Joined t a b)
    (hb : b ∈ spans) (hvb : b.valid) : spans.Clears ⟨start, b.stop⟩ := by
  intro span hmem hv
  obtain ⟨body, hbody⟩ := h.delimited span hmem hv
  have hlt := h.start_lt_stop hmem hv
  have hltb := h.start_lt_stop hb hvb
  have hgap := hjoined.le
  have hstart := hjoined.not_start hbody
  have hstop := hjoined.not_stop hbody
  have hfirst := hclears span hmem hv
  have hsecond := h.clears hb hvb span hmem hv
  simp only [Span.Beside, Span.Within, Span.Around, Span.inner] at hfirst hsecond ⊢
  omega

end SpanSet

/-! ## Splices of branches -/

/-- The splice puts the inside of a span, or nothing, in the place of a stretch that starts and ends
with a span. -/
structure SpanSet.Replaces (spans : SpanSet) (target source : Extent) : Prop where
  first : ∃ span ∈ spans, span.valid = true ∧ span.start = target.start
  chosen : (∃ span ∈ spans, span.valid = true ∧ source = span.inner ∧
    target.start ≤ span.start) ∨ source = ⟨target.start, target.start⟩

section Splice

variable {before lead new trail after : Text} {target source : Extent} {spans : SpanSet}
  {a b : Span}

/-- Joined spans that a splice leaves are still joined. -/
theorem Span.Joined.afterSplice
    (h : Span.Joined (before ++ (lead ++ (new ++ (trail ++ after)))) a b)
    (htruthful : spans.Truthful '\x7b' '\x7d' (before ++ (lead ++ (new ++ (trail ++ after)))))
    (haligned : spans.Aligned (before ++ (lead ++ (new ++ (trail ++ after)))) target source)
    (hreplaces : spans.Replaces target source) (hbefore : before.byteSize = target.start)
    (hlead : target.start + lead.byteSize = source.start)
    (hnew : source.start + new.byteSize = source.stop)
    (htrail : source.stop + trail.byteSize = target.stop) (ha : a ∈ spans) (hb : b ∈ spans)
    (hva : (a.afterSplice target source).valid)
    (hvb : (b.afterSplice target source).valid) :
    Span.Joined (before ++ (new ++ after)) (a.afterSplice target source)
      (b.afterSplice target source) := by
  have hin := haligned.within
  have hle := h.le
  have hva₀ := Span.valid_of_afterSplice hva
  have hvb₀ := Span.valid_of_afterSplice hvb
  have hlta := htruthful.start_lt_stop ha hva₀
  have hltb := htruthful.start_lt_stop hb hvb₀
  -- neither the brace before the target nor the one behind the source stands between the spans
  have hopening : ¬(a.stop ≤ target.start ∧ target.start < b.start) := by
    obtain ⟨first, hfirst, hv, hstart⟩ := hreplaces.first
    obtain ⟨body, hbody⟩ := htruthful.delimited first hfirst hv
    exact hstart ▸ h.not_start hbody
  have hclosing : source.stop = target.start ∨ target.start < source.start ∧
      ¬(a.stop ≤ source.stop ∧ source.stop < b.start) := by
    rcases hreplaces.chosen with ⟨chosen, hchosen, hv, rfl, hstart⟩ | rfl
    · obtain ⟨body, hbody⟩ := htruthful.delimited chosen hchosen hv
      have hlt := htruthful.start_lt_stop hchosen hv
      have hstop := h.not_stop hbody
      simp only [Span.inner] at *
      exact .inr ⟨by omega, by omega⟩
    · exact .inl rfl
  obtain ⟨gap, hgap, hno⟩ := h
  rcases ea : a.afterSplice target source with ⟨starta, stopa, va⟩
  rcases eb : b.afterSplice target source with ⟨startb, stopb, vb⟩
  rw [ea] at hva
  rw [eb] at hvb
  subst hva hvb
  have hcasesa := haligned.survivor_cases ha hva₀ hlta ea
  have hcasesb := haligned.survivor_cases hb hvb₀ hltb eb
  have hplaces : (b.start ≤ target.start ∧ stopa = a.stop ∧ startb = b.start) ∨
      (target.stop ≤ a.stop ∧ stopa = a.stop - target.stop + (target.start + source.size) ∧
        startb = b.start - target.stop + (target.start + source.size)) ∨
      (source.start ≤ a.stop ∧ b.start ≤ source.stop ∧
        stopa = a.stop - source.start + target.start ∧
        startb = b.start - source.start + target.start) := by
    clear hgap hno ea eb hreplaces htruthful haligned hbefore hlead hnew htrail hva₀ hvb₀
    simp only [size] at hcasesa hcasesb ⊢
    rcases hcasesa with hside | hside | hside | hside
    · exact .inl ⟨by omega, by omega, by omega⟩
    · exact .inr (.inl ⟨by omega, by omega, by omega⟩)
    · exact .inr (.inr ⟨by omega, by omega, by omega, by omega⟩)
    · exact .inr (.inl ⟨by omega, by omega, by omega⟩)
  refine ⟨gap, ?_, hno⟩
  let between : Span := ⟨a.stop, b.start, true⟩
  rcases hplaces with ⟨hside, rfl, rfl⟩ | ⟨hside, rfl, rfl⟩ | ⟨hside, hside', rfl, rfl⟩
  · rw [← hgap]
    exact slice?_before_target hbefore hlead hnew htrail (show between.stop ≤ _ from hside)
  · rw [← hgap]
    exact slice?_after_target hbefore hlead hnew htrail (show between.start ≤ between.stop from hle)
      hside
  · rw [← hgap]
    exact slice?_in_source hbefore hlead hnew htrail (show between.start ≤ between.stop from hle)
      hside hside'

end Splice

/-! ## Branches whose parts are joined -/

namespace Branch

/-- The spans with the two indices are joined as long as both are valid. -/
def JoinedAt (t : Text) (spans : SpanSet) (i j : Nat) : Prop :=
  ∃ a b, spans[i]? = some a ∧ spans[j]? = some b ∧
    (a.valid = true → b.valid = true → Span.Joined t a b)

/-- The parts of the branch are joined. -/
structure Ready (t : Text) (spans : SpanSet) (branch : Branch) : Prop where
  condition : JoinedAt t spans branch.condition branch.ifTrue
  otherwise : ∀ index, branch.ifFalse = some index → JoinedAt t spans branch.ifTrue index

section Step

variable {t : Text} {spans : SpanSet} {target source : Extent}

/-- A splice of a branch succeeds, and the branches whose parts are joined keep them so. -/
theorem exists_splice (htruthful : spans.Truthful '\x7b' '\x7d' t)
    (haligned : spans.Aligned t target source) (hreplaces : spans.Replaces target source) :
    ∃ t' spans', spans.splice t target source = .ok (t', spans') ∧
      spans'.Truthful '\x7b' '\x7d' t' ∧
      ∀ other : Branch, other.Ready t spans → other.Ready t' spans' := by
  obtain ⟨before, lead, new, trail, after, rfl, hbefore, hlead, hnew, htrail⟩ :=
    haligned.exists_parts
  obtain ⟨t', spans', hsplice, hspliced⟩ := htruthful.splice haligned
  have hsplice' : spans.splice (before ++ (lead ++ (new ++ (trail ++ after)))) target source = _ :=
    splice_append spans hbefore hlead hnew htrail
  rw [hsplice, Except.ok.injEq, Prod.mk.injEq] at hsplice'
  obtain ⟨rfl, rfl⟩ := hsplice'
  refine ⟨_, _, hsplice, hspliced.truthful, fun other hother => ?_⟩
  have hkept : ∀ i j, JoinedAt (before ++ (lead ++ (new ++ (trail ++ after)))) spans i j →
      JoinedAt (before ++ (new ++ after)) (spans.map (Span.afterSplice target source)) i j := by
    rintro i j ⟨a, b, ha, hb, hjoined⟩
    refine ⟨_, _, by rw [getElem?_map, ha]; rfl, by rw [getElem?_map, hb]; rfl, ?_⟩
    intro hva hvb
    exact (hjoined (Span.valid_of_afterSplice hva) (Span.valid_of_afterSplice hvb)).afterSplice
      htruthful haligned hreplaces hbefore hlead hnew htrail (mem_of_getElem? ha)
      (mem_of_getElem? hb) hva hvb
  exact ⟨hkept _ _ hother.condition, fun index hindex => hkept _ _ (hother.otherwise index hindex)⟩

end Step

section Resolve

variable {t : Text} {spans : SpanSet} {start stop : Nat}

/-- The inside of a span can take the place of a stretch around the span. -/
theorem aligned_inner (htruthful : spans.Truthful '\x7b' '\x7d' t)
    (hclears : spans.Clears ⟨start, stop⟩) (hstart : t.IsPlace start) (hstop : t.IsPlace stop)
    {chosen : Span} (hmem : chosen ∈ spans) (hv : chosen.valid) (hle : start ≤ chosen.start)
    (hle' : chosen.stop ≤ stop) : spans.Aligned t ⟨start, stop⟩ chosen.inner := by
  obtain ⟨body, hbody⟩ := htruthful.delimited chosen hmem hv
  have hinner := (Span.encloses_of_slice? rfl rfl hbody).inner
  have hsize := add_byteSize_of_slice? hinner
  obtain ⟨hfrom, hto⟩ := isPlace_of_slice? hinner
  refine ⟨?_, ?_, hclears, fun span hspan hvalid hin => ?_⟩
  · simp only [Span.inner] at hsize ⊢
    omega
  · simpa using ⟨hstart, hfrom, hto, hstop⟩
  · have hnested := htruthful.eq_or_nested hspan hmem hvalid hv
    rw [contains_iff] at hin
    rcases hnested with rfl | hnested
    · simp only [Span.inner] at hin
      omega
    · simp only [Span.Nested, Span.Around, Span.Beside, Span.inner] at hnested hin ⊢
      omega

/-- A stretch that no span is cut through by can be deleted. -/
theorem aligned_delete (hclears : spans.Clears ⟨start, stop⟩) (hstart : t.IsPlace start)
    (hstop : t.IsPlace stop) (hle : start ≤ stop) :
    spans.Aligned t ⟨start, stop⟩ ⟨start, start⟩ := by
  refine ⟨by simp [hle], by simpa using ⟨hstart, hstop⟩, hclears, fun span _ _ hin => ?_⟩
  rw [contains_iff] at hin
  simp only at hin
  omega

theorem get_eq_ok {i : Nat} {span : Span} (h : spans[i]? = some span) : spans.get i = .ok span := by
  rw [SpanSet.get, h]

/-- The spans of a branch whose parts are joined : the condition, the part that is joined to it, and
the last part, which is that one or is joined to it. -/
theorem Ready.exists_parts (h : branch.Ready t spans) :
    ∃ condition ifTrue last, spans[branch.condition]? = some condition ∧
      spans[branch.ifTrue]? = some ifTrue ∧ spans[branch.last]? = some last ∧
      (condition.valid → ifTrue.valid → Span.Joined t condition ifTrue) ∧
      (last = ifTrue ∨ (ifTrue.valid → last.valid → Span.Joined t ifTrue last)) := by
  obtain ⟨condition, ifTrue, hcondition, hifTrue, hjoined⟩ := h.condition
  refine ⟨condition, ifTrue, ?_⟩
  cases hifFalse : branch.ifFalse with
  | none =>
    have hlast : branch.last = branch.ifTrue := by rw [last, hifFalse]; rfl
    exact ⟨ifTrue, hcondition, hifTrue, by rw [hlast, hifTrue], hjoined, .inl rfl⟩
  | some index =>
    obtain ⟨ifTrue', last', hifTrue', hlast', hjoined'⟩ := h.otherwise index hifFalse
    obtain rfl : ifTrue' = ifTrue := Option.some.inj (hifTrue'.symm.trans hifTrue)
    have hlast : branch.last = index := by rw [last, hifFalse]; rfl
    exact ⟨last', hcondition, hifTrue, by rw [hlast, hlast'], hjoined, .inr hjoined'⟩

theorem isValid_eq {condition ifTrue last : Span}
    (hcondition : spans[branch.condition]? = some condition)
    (hifTrue : spans[branch.ifTrue]? = some ifTrue) (hlast : spans[branch.last]? = some last) :
    branch.isValid spans = .ok (condition.valid && ifTrue.valid && last.valid) := by
  simp only [isValid, get_eq_ok hcondition, get_eq_ok hifTrue, get_eq_ok hlast, ok_bind]
  rfl

/-- What a step does at a branch whose parts are joined : nothing if a part is gone, and else a
splice of the branch that makes the text shorter. -/
theorem Ready.resolveIn_cases (grammar : Grammar) (h : branch.Ready t spans)
    (htruthful : spans.Truthful '\x7b' '\x7d' t) :
    (branch.isValid spans = .ok false ∧
      resolveIn grammar (t, spans) branch = .ok (t, spans)) ∨
    (branch.isValid spans = .ok true ∧ ∃ target source, spans.Aligned t target source ∧
      spans.Replaces target source ∧ source.size < target.size ∧
      resolveIn grammar (t, spans) branch = spans.splice t target source) := by
  obtain ⟨condition, ifTrue, last, hcondition, hifTrue, hlast, hjoined, hjoined'⟩ := h.exists_parts
  have hisValid := isValid_eq hcondition hifTrue hlast
  by_cases hvalid : (condition.valid && ifTrue.valid && last.valid)
  · refine .inr ⟨hvalid ▸ hisValid, ?_⟩
    simp only [Bool.and_eq_true] at hvalid
    obtain ⟨⟨hv, hv'⟩, hv''⟩ := hvalid
    have hmem := mem_of_getElem? hcondition
    have hmem' := mem_of_getElem? hifTrue
    have hmem'' := mem_of_getElem? hlast
    have hlt := htruthful.start_lt_stop hmem hv
    have hlt' := htruthful.start_lt_stop hmem' hv'
    have hlt'' := htruthful.start_lt_stop hmem'' hv''
    have hgap := (hjoined hv hv').le
    have hgap' : last = ifTrue ∨ ifTrue.stop ≤ last.start :=
      hjoined'.imp_right fun hjoined' => (hjoined' hv' hv'').le
    obtain ⟨body, hbody⟩ := htruthful.delimited condition hmem hv
    obtain ⟨body'', hbody''⟩ := htruthful.delimited last hmem'' hv''
    have hplace := (isPlace_of_slice? hbody).1
    have hplace' := (isPlace_of_slice? hbody'').2
    -- no span is cut through by the ends of the branch
    have hfirst : spans.Clears ⟨condition.start, ifTrue.stop⟩ :=
      (htruthful.clears hmem hv).join htruthful (by omega) (hjoined hv hv') hmem' hv'
    have hclears : spans.Clears ⟨condition.start, last.stop⟩ := by
      rcases hjoined' with rfl | hjoined'
      · exact hfirst
      · exact hfirst.join htruthful (by omega) (hjoined' hv' hv'') hmem'' hv''
    have hinner := (Span.encloses_of_slice? rfl rfl hbody).inner
    rw [resolveIn_of_valid condition ifTrue (get_eq_ok hcondition) (get_eq_ok hifTrue)
      (get_eq_ok hlast) ⟨hv, hv', hv''⟩ (slice_eq_ok_iff.2 hinner)]
    have hchosen : ∀ chosen ∈ spans, chosen.valid → condition.start ≤ chosen.start →
        chosen.stop ≤ last.stop → chosen.start < chosen.stop → ∃ target source,
          spans.Aligned t target source ∧ spans.Replaces target source ∧
          source.size < target.size ∧
          spans.splice t ⟨condition.start, last.stop⟩ chosen.inner =
            spans.splice t target source := by
      intro chosen hin hvalid hle hle' hlt
      refine ⟨_, _, aligned_inner htruthful hclears hplace hplace' hin hvalid hle hle',
        ⟨⟨condition, hmem, hv, rfl⟩, .inl ⟨chosen, hin, hvalid, rfl, hle⟩⟩, ?_, rfl⟩
      simp only [size, Span.inner]
      omega
    split
    · exact hchosen ifTrue hmem' hv' (by omega) (by rcases hgap' with rfl | hgap' <;> omega) hlt'
    · split
      · exact hchosen last hmem'' hv'' (by rcases hgap' with rfl | hgap' <;> omega)
          (Nat.le_refl _) hlt''
      · have hle : condition.start < last.stop := by rcases hgap' with rfl | hgap' <;> omega
        refine ⟨_, _, aligned_delete hclears hplace hplace' (Nat.le_of_lt hle),
          ⟨⟨condition, hmem, hv, rfl⟩, .inr rfl⟩, ?_, rfl⟩
        simp only [size]
        omega
  · rw [Bool.not_eq_true] at hvalid
    refine .inl ⟨hvalid ▸ hisValid, ?_⟩
    simp only [resolveIn, hvalid ▸ hisValid, ok_bind]
    rfl

/-- A step at a branch whose parts are joined succeeds, and it keeps the spans truthful and the
parts of the other branches joined. -/
theorem Ready.resolveIn (grammar : Grammar) (h : branch.Ready t spans)
    (htruthful : spans.Truthful '\x7b' '\x7d' t) : ∃ t' spans',
      resolveIn grammar (t, spans) branch = .ok (t', spans') ∧
      spans'.Truthful '\x7b' '\x7d' t' ∧
      ∀ other : Branch, other.Ready t spans → other.Ready t' spans' := by
  rcases h.resolveIn_cases grammar htruthful with
    ⟨-, hstep⟩ | ⟨-, target, source, haligned, hreplaces, -, hstep⟩
  · exact ⟨t, spans, hstep, htruthful, fun _ hother => hother⟩
  · rw [hstep]
    exact exists_splice htruthful haligned hreplaces

end Resolve

/-! ## Linked branches -/

theorem SeparatedAt.joinedAt {t : Text} {mark : Char} {i j : Nat} (hmark : IsMark mark)
    (h : SeparatedAt t (braces t) mark i j) : JoinedAt t (braces t) i j := by
  obtain ⟨a, b, ha, hb, hsep⟩ := h
  exact ⟨a, b, ha, hb, fun _ _ => ((separates_iff hmark).1 hsep).joined hmark⟩

/-- The branches of a text are linked, and their parts are joined. -/
theorem exists_link (t : Text) :
    ∃ branches, link t (find '\x7b' '\x7d' t) = .ok branches ∧
      ∀ branch ∈ branches, branch.Ready t (find '\x7b' '\x7d' t) := by
  obtain ⟨branches, hlink, -, hmem⟩ := exists_link_follows t
  refine ⟨branches, hlink, fun branch hbranch => ?_⟩
  have hfollows := (hmem branch).1 hbranch
  exact ⟨hfollows.ifTrue.joinedAt isMark_question, fun index hindex =>
    ((hfollows.ifFalse index).1 hindex).joinedAt isMark_colon⟩

/-! ## Runs -/

section Run

variable {t : Text} {spans : SpanSet} {branches : List Branch}

/-- Branches whose parts are joined are resolved one after the other. -/
theorem exists_run (grammar : Grammar) (h : ∀ branch ∈ branches, branch.Ready t spans)
    (htruthful : spans.Truthful '\x7b' '\x7d' t) : ∃ t' spans',
      branches.foldlM (resolveIn grammar) (t, spans) = .ok (t', spans') ∧
      spans'.Truthful '\x7b' '\x7d' t' ∧
      ∀ other : Branch, other.Ready t spans → other.Ready t' spans' := by
  induction branches generalizing t spans with
  | nil => exact ⟨t, spans, rfl, htruthful, fun _ hother => hother⟩
  | cons branch branches ih =>
    obtain ⟨hbranch, hlater⟩ := forall_mem_cons.1 h
    obtain ⟨t', spans', hstep, htruthful', hkept⟩ := hbranch.resolveIn grammar htruthful
    obtain ⟨t'', spans'', hrun, htruthful'', hkept'⟩ :=
      ih (fun other hmem => hkept other (hlater other hmem)) htruthful'
    refine ⟨t'', spans'', ?_, htruthful'', fun other hother => hkept' other (hkept other hother)⟩
    rw [foldlM_cons, hstep]
    exact hrun

/-- The branches of every text are resolved. -/
theorem exists_resolve (grammar : Grammar) (t : Text) : ∃ out, resolve grammar t = .ok out := by
  obtain ⟨branches, hlink, hready⟩ := exists_link t
  obtain ⟨out, spans, hrun, -⟩ := exists_run grammar hready (truthful_find _ _ t)
  refine ⟨out, ?_⟩
  simp only [resolve, hlink, hrun, ok_bind]
  rfl

/-- The branch is gone from the text, or each of its parts still has its braces. -/
def Braced (t : Text) (spans : SpanSet) (branch : Branch) : Prop :=
  branch.isValid spans = .ok false ∨ branch.isValid spans = .ok true ∧
    ∀ index ∈ branch.condition :: branch.ifTrue :: branch.ifFalse.toList, ∃ span body,
      spans.get index = .ok span ∧ span.Encloses '\x7b' '\x7d' t body

theorem Ready.braced (h : branch.Ready t spans)
    (htruthful : spans.Truthful '\x7b' '\x7d' t) : branch.Braced t spans := by
  obtain ⟨condition, ifTrue, last, hcondition, hifTrue, hlast, -⟩ := h.exists_parts
  have hvalid := isValid_eq hcondition hifTrue hlast
  cases hall : condition.valid && ifTrue.valid && last.valid with
  | false => exact .inl (hall ▸ hvalid)
  | true =>
    refine .inr ⟨hall ▸ hvalid, fun index hindex => ?_⟩
    simp only [Bool.and_eq_true] at hall
    have hdelimited : ∀ {i : Nat} {span : Span}, spans[i]? = some span → span.valid →
        ∃ span body, spans.get i = .ok span ∧ span.Encloses '\x7b' '\x7d' t body := by
      intro i span hspan hv
      obtain ⟨body, hbody⟩ := htruthful.delimited span (mem_of_getElem? hspan) hv
      exact ⟨span, body, get_eq_ok hspan, Span.encloses_of_slice? rfl rfl hbody⟩
    simp only [mem_cons, mem_toList] at hindex
    rcases hindex with rfl | rfl | hindex
    · exact hdelimited hcondition hall.1.1
    · exact hdelimited hifTrue hall.1.2
    · rw [Branch.last, hindex, getD_some] at hlast
      exact hdelimited hlast hall.2

/-- Each branch that was linked is reached, and if it is still valid then, its parts have their
braces. -/
theorem exists_branches_reach (grammar : Grammar) (h : ∀ branch ∈ branches, branch.Ready t spans)
    (htruthful : spans.Truthful '\x7b' '\x7d' t) {front back : List Branch}
    (hparts : branches = front ++ branch :: back) : ∃ t' spans',
      front.foldlM (resolveIn grammar) (t, spans) = .ok (t', spans') ∧ branch.Braced t' spans' := by
  subst hparts
  obtain ⟨hfront, hback⟩ := forall_mem_append.1 h
  obtain ⟨t', spans', hrun, htruthful', hkept⟩ := exists_run grammar hfront htruthful
  exact ⟨t', spans', hrun, (hkept branch (hback branch mem_cons_self)).braced htruthful'⟩

end Run

end Branch

end SqlScript
