import Mathlib.Data.List.TakeWhile
import SqlScript.Proofs.ByOffset

/-!
# Values that are put in as they are

A template without an opening brace declares no defaults and has no branches, and a value is put in
for each of its references, as it is (`Substituted`). But branches are resolved after that, in the
text with the values. So a branch that stands in a value, or that the values make up together, is
resolved like one of the template (`render_resolves_value`). Rendering gives the text with the
values just if no branch occurs in it (`render_eq_substitute_iff`).

`Branch.Occurs` says when a branch occurs, apart from how spans are found and linked : where two
groups of matched braces follow each other with only a question mark and blanks between them. The
spans that are found are such groups (`Nest.mem_find_iff`), so a branch is linked just if one occurs
(`Branch.link_eq_nil_iff`). The first branch that is linked is there when it is resolved, which
makes the text shorter, and no later step makes it longer (`Branch.byteSize_run_le`). So a text in
which a branch occurs never stays as it is (`Branch.exists_resolve_iff`).
-/

namespace SqlScript

open List Text SpanSet Nest

namespace Branch

/-! ## Texts in which a branch occurs -/

/-- A condition in braces and a part in braces follow each other in the text, with a question mark
and blanks between them. -/
def Occurs (t : Text) : Prop :=
  ∃ before condition gap gap' part after : Text,
    t = before ++ (condition ++ (gap ++ '?' :: gap' ++ (part ++ after))) ∧
    IsGroup '\x7b' '\x7d' condition ∧ gap.Blank ∧ gap'.Blank ∧
    IsGroup '\x7b' '\x7d' part

theorem occurs_iff (t : Text) : Occurs t ↔ ∃ a ∈ find '\x7b' '\x7d' t,
    ∃ b ∈ find '\x7b' '\x7d' t, Separated t '?' a b := by
  have hmem : ∀ {span : Span}, span ∈ find '\x7b' '\x7d' t ↔ _ :=
    mem_find_iff (by decide)
  constructor
  · rintro ⟨before, condition, gap, gap', part, after, rfl, hcondition, hgap, hgap', hpart⟩
    let stop := before.byteSize + condition.byteSize
    let start := stop + Text.byteSize (gap ++ '?' :: gap')
    refine ⟨⟨before.byteSize, stop, true⟩, hmem.2 ⟨rfl, _, hcondition, ?_⟩,
      ⟨start, start + part.byteSize, true⟩, hmem.2 ⟨rfl, _, hpart, ?_⟩, gap, gap', hgap, hgap', ?_⟩
    · exact slice?_append before condition _
    · refine slice?_eq_some_iff.2
        ⟨before ++ (condition ++ (gap ++ '?' :: gap')), after, ?_, ?_, ?_⟩
      all_goals simp [start, stop, Nat.add_assoc]
    · refine slice?_eq_some_iff.2 ⟨before ++ condition, part ++ after, ?_, ?_, ?_⟩
      all_goals simp [start, stop, Nat.add_assoc]
  · rintro ⟨a, ha, b, hb, gap, gap', hgap, hgap', hbetween⟩
    obtain ⟨-, condition, hcondition, hslice⟩ := hmem.1 ha
    obtain ⟨-, part, hpart, hslice'⟩ := hmem.1 hb
    obtain ⟨before, after, htext, -⟩ := slice?_eq_some_iff.1
      (slice?_append_slice? hslice (slice?_append_slice? hbetween hslice'))
    exact ⟨before, condition, gap, gap', part, after, by simpa using htext, hcondition, hgap, hgap',
      hpart⟩

/-! ## Texts in which a branch is linked -/

/-- A branch is linked just if one occurs. -/
theorem link_eq_nil_iff {t : Text} {branches : List Branch}
    (h : link t (find '\x7b' '\x7d' t) = .ok branches) : branches = [] ↔ ¬ Occurs t := by
  obtain ⟨branches', hlink, -, hmem⟩ := exists_link_follows t
  cases h.symm.trans hlink
  rw [eq_nil_iff_forall_not_mem, occurs_iff]
  constructor
  · rintro hnone ⟨a, ha, b, hb, hsep⟩
    obtain ⟨i, hi⟩ := mem_iff_getElem?.1 ha
    obtain ⟨j, hj⟩ := mem_iff_getElem?.1 hb
    obtain ⟨ifFalse, hfollows⟩ :=
      exists_follows ⟨a, b, hi, hj, (separates_iff isMark_question).2 hsep⟩
    exact hnone _ ((hmem _).2 hfollows)
  · intro hno branch hbranch
    obtain ⟨a, b, ha, hb, hsep⟩ := ((hmem branch).1 hbranch).ifTrue
    exact hno ⟨a, mem_of_getElem? ha, b, mem_of_getElem? hb, (separates_iff isMark_question).1 hsep⟩

/-! ## Steps that make the text shorter -/

section Size

variable {t t' : Text} {spans spans' : SpanSet} {grammar : Grammar}

theorem byteSize_splice {target source : Extent} (htruthful : spans.Truthful '\x7b' '\x7d' t)
    (haligned : spans.Aligned t target source)
    (h : spans.splice t target source = .ok (t', spans')) :
    t'.byteSize + target.size = t.byteSize + source.size := by
  obtain ⟨_, _, hsplice, hspliced⟩ := htruthful.splice haligned
  cases h.symm.trans hsplice
  obtain ⟨before, old, new, after, htext, hbefore, hold, hnew, rfl⟩ := hspliced.text
  have hsize := add_byteSize_of_slice? hnew
  simp only [htext, byteSize_append, Extent.size]
  omega

/-- A step does not make the text longer, and it makes it shorter if the parts of the branch are
still there. -/
theorem Ready.byteSize_resolveIn {branch : Branch} (h : branch.Ready t spans)
    (htruthful : spans.Truthful '\x7b' '\x7d' t)
    (hstep : Branch.resolveIn grammar (t, spans) branch = .ok (t', spans')) :
    t'.byteSize ≤ t.byteSize ∧ (branch.isValid spans = .ok true → t'.byteSize < t.byteSize) := by
  rcases h.resolveIn_cases grammar htruthful with
    ⟨hvalid, hcase⟩ | ⟨-, target, source, haligned, -, hlt, hcase⟩
  · cases hstep.symm.trans hcase
    refine ⟨Nat.le_refl _, fun htrue => ?_⟩
    cases hvalid.symm.trans htrue
  · have hsize := byteSize_splice htruthful haligned (hcase.symm.trans hstep)
    exact ⟨by omega, fun _ => by omega⟩

theorem byteSize_run_le {branches : List Branch} (h : ∀ branch ∈ branches, branch.Ready t spans)
    (htruthful : spans.Truthful '\x7b' '\x7d' t)
    (hrun : branches.foldlM (resolveIn grammar) (t, spans) = .ok (t', spans')) :
    t'.byteSize ≤ t.byteSize := by
  induction branches generalizing t spans with
  | nil =>
    cases hrun
    exact Nat.le_refl _
  | cons branch branches ih =>
    obtain ⟨hbranch, hlater⟩ := forall_mem_cons.1 h
    obtain ⟨next, nextSpans, hstep, htruthful', hkept⟩ := hbranch.resolveIn grammar htruthful
    rw [foldlM_cons, hstep] at hrun
    have hle := ih (fun other hmem => hkept other (hlater other hmem)) htruthful' hrun
    exact Nat.le_trans hle (hbranch.byteSize_resolveIn htruthful hstep).1

/-- All the parts of a branch are there at first. -/
theorem Ready.isValid_find {branch : Branch} (h : branch.Ready t (find '\x7b' '\x7d' t)) :
    branch.isValid (find '\x7b' '\x7d' t) = .ok true := by
  obtain ⟨condition, ifTrue, last, hcondition, hifTrue, hlast, -⟩ := h.exists_parts
  have hvalid : ∀ {i : Nat} {span : Span}, (find '\x7b' '\x7d' t)[i]? = some span →
      span.valid := by
    intro i span hspan
    have hmem := mem_of_getElem? hspan
    exact ((mem_find_iff (by decide)).1 hmem).1
  rw [isValid_eq hcondition hifTrue hlast, hvalid hcondition, hvalid hifTrue, hvalid hlast]
  rfl

/-- A text stays as it is when its branches are resolved just if none occurs in it. -/
theorem exists_resolve_iff (grammar : Grammar) (t : Text) :
    ∃ out, resolve grammar t = .ok out ∧ (out = t ↔ ¬ Occurs t) := by
  obtain ⟨branches, hlink, hready⟩ := exists_link t
  have htruthful := truthful_find '\x7b' '\x7d' t
  obtain ⟨out, spans, hrun, -⟩ := exists_run grammar hready htruthful
  refine ⟨out, ?_, ?_⟩
  · simp only [resolve, hlink, hrun, ok_bind]
    rfl
  rw [← link_eq_nil_iff hlink]
  cases branches with
  | nil =>
    cases hrun
    simp
  | cons branch branches =>
    obtain ⟨hbranch, hlater⟩ := forall_mem_cons.1 hready
    obtain ⟨next, nextSpans, hstep, htruthful', hkept⟩ := hbranch.resolveIn grammar htruthful
    rw [foldlM_cons, hstep] at hrun
    have hle : out.byteSize ≤ next.byteSize :=
      byteSize_run_le (fun other hmem => hkept other (hlater other hmem)) htruthful' hrun
    have hlt := (hbranch.byteSize_resolveIn htruthful hstep).2 hbranch.isValid_find
    refine ⟨?_, by simp⟩
    rintro rfl
    omega

end Size

end Branch

/-! ## Templates without braces -/

/-- The text `out` is the other one with a value put in for each reference : for each `@` the value
of the longest name that follows it, as it is, and nothing where there is none. -/
inductive Substituted (values : Parameters) : Text → Text → Prop where
  | nil : Substituted values [] []
  | char {c : Char} {t out : Text} : c ≠ '@' → Substituted values t out →
    Substituted values (c :: t) (c :: out)
  | value {t name value rest out : Text} : ByOffset.Longest values t name value rest →
    Substituted values rest out → Substituted values ('@' :: t) (value ++ out)
  | unknown {t out : Text} : ByOffset.NoName values t → Substituted values t out →
    Substituted values ('@' :: t) ('@' :: out)

theorem substituted_substitute (values : Parameters) (t : Text) :
    Substituted values t (values.substitute t) := by
  induction hlength : t.length using Nat.strongRecOn generalizing t with
  | ind n ih =>
    subst hlength
    cases t with
    | nil =>
      rw [Parameters.substitute]
      exact .nil
    | cons c t =>
      by_cases hc : c = '@'
      · subst hc
        rcases ByOffset.longestMatch?_spec values t with
          ⟨hnone, hno⟩ | ⟨name, value, rest, hsome, hlong⟩
        · rw [ByOffset.substitute_unknown hnone]
          exact .unknown hno (ih t.length (by simp) t rfl)
        · have hle := Parameters.length_le_of_longestMatch? hsome
          rw [ByOffset.substitute_reference hsome]
          exact .value hlong (ih rest.length (by rw [length_cons]; omega) rest rfl)
      · rw [ByOffset.substitute_char hc]
        exact .char hc (ih t.length (by simp) t rfl)

theorem Default.segments_of_not_infix {t : Text} (h : ¬ opening <:+: t) : segments t = (t, []) := by
  have hsplit : split? t = none := by
    rw [split?, cut?_eq_none_iff.2 h]
    rfl
  rw [segments]
  split
  · rename_i hsome
    simp [hsplit] at hsome
  · rfl

/-- A text without an opening brace declares nothing. -/
theorem extract_of_notMem {t : Text} (h : '\x7b' ∉ t) : Default.extract t = (t, []) := by
  have hopening : ¬ Default.opening <:+: t := fun hin => h (hin.subset (by decide))
  rw [Default.extract, Default.segments_of_not_infix hopening]
  rfl

/-- A template without an opening brace renders to the text with the values of its references just
if no branch occurs in that text. -/
theorem render_eq_substitute_iff (grammar : Grammar) {template : Text} (h : '\x7b' ∉ template)
    (parameters : Parameters) : ∃ out, render grammar template parameters = .ok out ∧
      Substituted parameters template (parameters.substitute template) ∧
      (out = parameters.substitute template ↔
        ¬ Branch.Occurs (parameters.substitute template)) := by
  obtain ⟨out, hresolve, hiff⟩ := Branch.exists_resolve_iff grammar (parameters.substitute template)
  refine ⟨out, ?_, substituted_substitute parameters template, hiff⟩
  have hdefaults : parameters.withDefaults [] = parameters := List.append_nil parameters
  rw [render, extract_of_notMem h]
  simp only [hdefaults, hresolve]

/-- Values that would be a branch but for a brace. -/
theorem render_eq_substitute_pieces :
    '\x7b' ∉ "@a@b".toList ∧
    (render .extended "@a@b".toList [("a".toList, "\x7btrue\x7d?".toList),
      ("b".toList, "\x7bA".toList)]).toOption = some "\x7btrue\x7d?\x7bA".toList ∧
    ¬ Branch.Occurs "\x7btrue\x7d?\x7bA".toList := by
  have hno : '\x7b' ∉ "@a@b".toList := by decide
  have hrender : (render .extended "@a@b".toList [("a".toList, "\x7btrue\x7d?".toList),
      ("b".toList, "\x7bA".toList)]).toOption = some "\x7btrue\x7d?\x7bA".toList := by
    decide +kernel
  have hvalues : Parameters.substitute [("a".toList, "\x7btrue\x7d?".toList),
      ("b".toList, "\x7bA".toList)] "@a@b".toList = "\x7btrue\x7d?\x7bA".toList := by
    decide +kernel
  refine ⟨hno, hrender, ?_⟩
  obtain ⟨out, hout, -, hiff⟩ := render_eq_substitute_iff .extended hno
    [("a".toList, "\x7btrue\x7d?".toList), ("b".toList, "\x7bA".toList)]
  rw [hout] at hrender
  rw [hvalues] at hiff
  exact hiff.1 (Option.some.inj hrender)

/-- A branch that stands in a value is resolved. -/
theorem render_resolves_value :
    '\x7b' ∉ "@x".toList ∧
    Parameters.substitute [("x".toList, "\x7btrue\x7d?\x7bA\x7d".toList)] "@x".toList =
      "\x7btrue\x7d?\x7bA\x7d".toList ∧
    (render .extended "@x".toList
      [("x".toList, "\x7btrue\x7d?\x7bA\x7d".toList)]).toOption = some "A".toList := by
  refine ⟨?_, ?_, ?_⟩
  all_goals decide +kernel

end SqlScript
