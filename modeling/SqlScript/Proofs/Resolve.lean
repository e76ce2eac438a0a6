import SqlScript.Proofs.Margin
import SqlScript.Proofs.Template

/-!
# Resolving the branches of a template

The branches of a template are resolved one after another in one text, and every splice moves the
spans that are still to come. `Template.Resolves` is the invariant of the run : the branches of a
template that stands anywhere in a text are resolved in order while the spans after it and around it
wait. A branch of the tree keeps one part and clears the spans around it, so the branches of the
other part and the stray ones are passed over (`runs_of_gone`), and the run goes on with the part
that was kept and then with the rest (`Resolves.branch`). `Template.resolve_print` says that
resolving a printed template gives its meaning.
-/

namespace SqlScript

open List Option Text SpanSet

variable {lo place : Nat} {last : Span} {gone later : SpanSet}

/-! ## Spans inside a splice -/

namespace Span

variable {target source : Extent} {span : Span}

/-- A span that starts in the kept part moves with it. -/
theorem afterSplice_of_source (hvalid : span.valid) (hin : target.start ≤ source.start)
    (hstart : source.start ≤ span.start) (hstop : span.start < source.stop) :
    span.afterSplice target source = span.drawIn source.start (source.start - target.start) := by
  obtain ⟨start, stop, valid⟩ := span
  obtain rfl : valid := hvalid
  have hc : source.contains start := by
    simp only [Extent.contains, Bool.and_eq_true, decide_eq_true_eq]
    exact ⟨hstart, hstop⟩
  simp only at hstart hstop
  simp only [afterSplice, drawIn, moveBy, Bool.not_true, Bool.false_eq_true, if_false]
  rw [if_pos (by omega), hc, if_pos rfl, if_pos hstart]
  congr 1 <;> omega

/-- A span that starts in the spliced stretch and not in the kept part is gone. -/
theorem valid_afterSplice_of_target (hstart : target.start ≤ span.start)
    (hstop : span.start < target.stop)
    (hout : span.start < source.start ∨ source.stop ≤ span.start) :
    (span.afterSplice target source).valid = false := by
  have hc : source.contains span.start = false := by
    simp only [Extent.contains, Bool.and_eq_false_iff, decide_eq_false_iff_not]
    omega
  unfold afterSplice
  cases hvalid : span.valid with
  | false => simp [hvalid]
  | true => simp [hstart, hc, Nat.not_le.2 hstop]

end Span

/-- The spans of a template in the kept part. -/
theorem Template.map_afterSplice_spans (T : Template) (target source : Extent)
    (hin : target.start ≤ source.start) (hstop : source.start + T.print.byteSize ≤ source.stop) :
    (T.spans source.start).map (Span.afterSplice target source) = T.spans target.start := by
  have hmoved : (T.spans source.start).map (Span.afterSplice target source) =
      (T.spans source.start).map (Span.drawIn source.start (source.start - target.start)) := by
    refine map_congr_left fun span hmem => ?_
    obtain ⟨hvalid, -⟩ := Nest.exists_append_of_mem_spans hmem
    obtain ⟨hlo, hlt, hhi⟩ := bounds_of_mem_spans hmem
    exact Span.afterSplice_of_source hvalid hin hlo (by omega)
  rw [hmoved, spans, Nest.map_drawIn_spans _ (Nat.le_refl _) (by omega), spans]
  congr 1
  omega

theorem Template.map_drawIn_spans (T : Template) {edge loss : Nat} (hedge : edge ≤ place)
    (hloss : loss ≤ place) : (T.spans place).map (Span.drawIn edge loss) = T.spans (place - loss) :=
  Nest.map_drawIn_spans T.nest hedge hloss

theorem SpanSet.clear_append {hi : Nat} {a b : SpanSet} :
    Clear lo hi (a ++ b) ↔ a.Clear lo hi ∧ b.Clear lo hi :=
  forall_mem_append

/-- All the spans are gone from the text. -/
def SpanSet.Gone (spans : SpanSet) : Prop :=
  ∀ span ∈ spans, span.valid = false

theorem SpanSet.Gone.clear (h : gone.Gone) (lo hi : Nat) : gone.Clear lo hi := by
  intro span hmem hvalid
  simp [h span hmem] at hvalid

theorem SpanSet.Gone.map_drawIn (h : gone.Gone) (edge loss : Nat) :
    gone.map (Span.drawIn edge loss) = gone := by
  refine (map_congr_left fun span hmem => ?_).trans (List.map_id gone)
  simp [Span.drawIn, h span hmem]

/-! ## Runs -/

namespace Branch

/-- The steps at the branches lead from `state` to `state'`. -/
def Runs (grammar : Grammar) (branches : List Branch) (state state' : Text × SpanSet) : Prop :=
  branches.foldlM (resolveIn grammar) state = .ok state'

variable {grammar : Grammar}

theorem runs_nil (state : Text × SpanSet) : Runs grammar [] state state :=
  rfl

variable {branches : List Branch} {branch : Branch}

theorem Runs.append {branches' : List Branch} {state state' state'' : Text × SpanSet}
    (h : Runs grammar branches state state') (h' : Runs grammar branches' state' state'') :
    Runs grammar (branches ++ branches') state state'' := by
  unfold Runs at *
  rw [foldlM_append, h]
  exact h'

theorem runs_cons {state state' state'' : Text × SpanSet}
    (h : resolveIn grammar state branch = .ok state') (h' : Runs grammar branches state' state'') :
    Runs grammar (branch :: branches) state state'' := by
  unfold Runs at *
  rw [foldlM_cons, h]
  exact h'

/-- The condition of the branch is one of the spans from `lo` up to `hi`, and its parts are
spans. -/
def Between (lo hi total : Nat) (branch : Branch) : Prop :=
  lo ≤ branch.condition ∧ branch.condition < hi ∧ branch.ifTrue < total ∧ branch.last < total

theorem Between.mono {hi total lo' hi' : Nat} (h : branch.Between lo hi total) (hlo : lo' ≤ lo)
    (hhi : hi ≤ hi') : branch.Between lo' hi' total :=
  ⟨Nat.le_trans hlo h.1, Nat.lt_of_lt_of_le h.2.1 hhi, h.2.2⟩

theorem StrayAt.between {total index : Nat} (h : branch.StrayAt total index) :
    branch.Between index (index + 1) total := by
  obtain ⟨rfl, htrue, hlast⟩ := h
  exact ⟨Nat.le_refl _, Nat.lt_succ_self _, htrue, hlast⟩

theorem get_of_lt {spans : SpanSet} {index : Nat} (h : index < spans.length) :
    ∃ span, spans.get index = .ok span := by
  simp [SpanSet.get, h]

/-- A branch whose condition is gone is passed over. -/
theorem resolveIn_of_gone (t : Text) {done : SpanSet} (hgone : gone.Gone)
    (h : branch.Between done.length (done.length + gone.length)
      (done ++ (gone ++ later)).length) :
    resolveIn grammar (t, done ++ (gone ++ later)) branch = .ok (t, done ++ (gone ++ later)) := by
  obtain ⟨hlo, hhi, htrue, hlast⟩ := h
  obtain ⟨span, hspan, hmem⟩ : ∃ span,
      SpanSet.get (done ++ (gone ++ later)) branch.condition = .ok span ∧ span ∈ gone := by
    have hlt : branch.condition - done.length < gone.length := by omega
    refine ⟨gone[branch.condition - done.length], ?_, getElem_mem hlt⟩
    simp [SpanSet.get, getElem?_append_right hlo, getElem?_append_left hlt, hlt]
  obtain ⟨ifTrue, htrue⟩ := get_of_lt htrue
  obtain ⟨last, hlast⟩ := get_of_lt hlast
  simp only [resolveIn, isValid, hspan, htrue, hlast, ok_bind, hgone span hmem, Bool.false_and]
  rfl

theorem runs_of_gone (t : Text) {done : SpanSet} (hgone : gone.Gone) {total : Nat}
    (htotal : (done ++ (gone ++ later)).length = total)
    (h : ∀ branch ∈ branches, branch.Between done.length (done.length + gone.length) total) :
    Runs grammar branches (t, done ++ (gone ++ later)) (t, done ++ (gone ++ later)) := by
  subst htotal
  induction branches with
  | nil => exact runs_nil _
  | cons branch branches ih =>
    exact runs_cons (resolveIn_of_gone t hgone (h branch mem_cons_self))
      (ih fun other hmem => h other (mem_cons_of_mem _ hmem))

end Branch

namespace Template

open Branch

variable {total first hi start stop : Nat} {T rest : Template}

/-- The branches of a template have their conditions among its spans. -/
theorem Links.between {branches : List Branch} (h : Links total T first branches)
    (hfirst : first + T.count ≤ total) :
    ∀ branch ∈ branches, branch.Between first (first + T.count) total := by
  induction h with
  | nil => simp
  | text _ ih => simpa using ih (by simpa using hfirst)
  | ifThen hbody hstray hrest ihb ihr =>
    rw [count_ifThen] at *
    intro branch hmem
    simp only [mem_cons, mem_append] at hmem
    rcases hmem with rfl | hmem | hmem | hmem
    · refine ⟨by simp, by simp only; omega, by simp only; omega, ?_⟩
      simp only [last, getD_none]
      omega
    · exact (ihb (by omega) branch hmem).mono (by omega) (by omega)
    · exact (hstray branch hmem).between.mono (by omega) (by omega)
    · exact (ihr (by omega) branch hmem).mono (by omega) (by omega)
  | ifThenElse hbody hstray hother hstray' hrest ihb iho ihr =>
    rw [count_ifThenElse] at *
    intro branch hmem
    simp only [mem_cons, mem_append] at hmem
    rcases hmem with rfl | hmem | hmem | hmem | hmem | hmem
    · refine ⟨by simp, by simp only; omega, by simp only; omega, ?_⟩
      simp only [last, getD_some]
      omega
    · exact (ihb (by omega) branch hmem).mono (by omega) (by omega)
    · exact (hstray branch hmem).between.mono (by omega) (by omega)
    · exact (iho (by omega) branch hmem).mono (by omega) (by omega)
    · exact (hstray' branch hmem).between.mono (by omega) (by omega)
    · exact (ihr (by omega) branch hmem).mono (by omega) (by omega)

/-- The branches of a template in braces, with those whose condition is the template itself. -/
theorem Links.between_append {inner stray : List Branch} (h : Links total T first inner)
    (hstray : ∀ branch ∈ stray, branch.StrayAt total (first + T.count))
    (hfirst : first + T.count ≤ total) (hlo : lo ≤ first)
    (hhi : first + T.count + 1 ≤ hi) : ∀ branch ∈ inner ++ stray, branch.Between lo hi total := by
  intro branch hmem
  rcases mem_append.1 hmem with hmem | hmem
  · exact (h.between hfirst branch hmem).mono hlo (by omega)
  · exact (hstray branch hmem).between.mono (by omega) hhi

theorem byteSize_value_le (grammar : Grammar) (T : Template) :
    (T.value grammar).byteSize ≤ T.print.byteSize := by
  induction T with
  | nil => simp [value]
  | text s rest ih =>
    simp only [value, print, byteSize_append]
    omega
  | ifThen condition body rest ihb ihr =>
    rw [print_ifThen, value, byteSize_append, byteSize_append, byteSize_choice]
    split
    · omega
    · simp only [byteSize_nil]
      omega
  | ifThenElse condition body other rest ihb iho ihr =>
    rw [print_ifThenElse, value]
    simp only [byteSize_append, byteSize_choice, byteSize_alternative]
    split <;> omega

/-! ## The invariant -/

/-- The branches of the template are resolved, wherever it stands in a text and whatever waits. -/
def Resolves (grammar : Grammar) (T : Template) : Prop :=
  ∀ (before after : Text) (done later : SpanSet) (branches : List Branch) (total : Nat),
    done.length + T.count + later.length = total → Links total T done.length branches →
    later.Clear before.byteSize (before.byteSize + T.print.byteSize) →
    ∃ done' : SpanSet, done'.length = done.length + T.count ∧
      Runs grammar branches
        (before ++ (T.print ++ after), done ++ (T.spans before.byteSize ++ later))
        (before ++ (T.value grammar ++ after), done' ++ later.map
          (Span.drawIn (before.byteSize + T.print.byteSize)
            (T.print.byteSize - (T.value grammar).byteSize)))

variable {grammar : Grammar}

/-- Two templates, one after the other, with spans between them that are gone. -/
theorem Resolves.append {M : Template} (hM : Resolves grammar M) (hrest : Resolves grammar rest)
    (before after : Text) (done gone later : SpanSet) (hgone : gone.Gone)
    {first skipped last : List Branch}
    (htotal : done.length + M.count + gone.length + rest.count + later.length = total)
    (hfirst : Links total M done.length first)
    (hskipped : ∀ branch ∈ skipped, branch.Between (done.length + M.count)
      (done.length + M.count + gone.length) total)
    (hlast : Links total rest (done.length + M.count + gone.length) last)
    (hlater : later.Clear before.byteSize
      (before.byteSize + M.print.byteSize + rest.print.byteSize)) :
    ∃ done' : SpanSet, done'.length = done.length + M.count + gone.length + rest.count ∧
      Runs grammar (first ++ (skipped ++ last))
        (before ++ (M.print ++ (rest.print ++ after)), done ++ (M.spans before.byteSize ++
          (gone ++ (rest.spans (before.byteSize + M.print.byteSize) ++ later))))
        (before ++ (M.value grammar ++ (rest.value grammar ++ after)), done' ++ later.map
          (Span.drawIn (before.byteSize + M.print.byteSize + rest.print.byteSize)
            (M.print.byteSize - (M.value grammar).byteSize +
              (rest.print.byteSize - (rest.value grammar).byteSize)))) := by
  have hMvalue := byteSize_value_le grammar M
  have hrestValue := byteSize_value_le grammar rest
  have hwait : Clear before.byteSize (before.byteSize + M.print.byteSize)
      (gone ++ (rest.spans (before.byteSize + M.print.byteSize) ++ later)) :=
    clear_append.2 ⟨hgone.clear _ _, clear_append.2
      ⟨Nest.clear_spans _ (Nat.le_refl _), hlater.mono (Nat.le_refl _) (by omega)⟩⟩
  obtain ⟨done₁, hlength₁, hrun₁⟩ := hM before (rest.print ++ after) done
    (gone ++ (rest.spans (before.byteSize + M.print.byteSize) ++ later)) first total
    (by simp only [length_append, length_spans]; omega) hfirst hwait
  have hplace : before.byteSize + M.print.byteSize -
      (M.print.byteSize - (M.value grammar).byteSize) = (before ++ M.value grammar).byteSize := by
    rw [byteSize_append]
    omega
  rw [map_append, map_append, hgone.map_drawIn,
    rest.map_drawIn_spans (Nat.le_refl _) (by omega), hplace] at hrun₁
  obtain ⟨later₁, hlater₁⟩ : ∃ later₁ : SpanSet, later₁ = later.map (Span.drawIn
      (before.byteSize + M.print.byteSize) (M.print.byteSize - (M.value grammar).byteSize)) :=
    ⟨_, rfl⟩
  rw [← hlater₁] at hrun₁
  have hlength : later₁.length = later.length := by rw [hlater₁, length_map]
  -- the branches between are passed over
  have hrun₂ : Runs grammar skipped
      (before ++ (M.value grammar ++ (rest.print ++ after)), done₁ ++ (gone ++
        (rest.spans (before ++ M.value grammar).byteSize ++ later₁)))
      (before ++ (M.value grammar ++ (rest.print ++ after)), done₁ ++ (gone ++
        (rest.spans (before ++ M.value grammar).byteSize ++ later₁))) := by
    refine runs_of_gone _ hgone ?_ (hlength₁ ▸ hskipped)
    simp only [length_append, length_spans]
    omega
  have hclear : later₁.Clear (before ++ M.value grammar).byteSize
      ((before ++ M.value grammar).byteSize + rest.print.byteSize) := by
    rw [hlater₁]
    refine (hlater.drawIn (by omega) (by omega) (by omega)).mono ?_ ?_ <;>
      rw [byteSize_append] <;> omega
  obtain ⟨done₂, hlength₂, hrun₃⟩ := hrest (before ++ M.value grammar) after (done₁ ++ gone) later₁
    last total (by simp only [length_append]; omega)
    (by rw [length_append, hlength₁]; exact hlast) hclear
  refine ⟨done₂, by rw [hlength₂, length_append, hlength₁], ?_⟩
  have hmap : later₁.map (Span.drawIn ((before ++ M.value grammar).byteSize + rest.print.byteSize)
      (rest.print.byteSize - (rest.value grammar).byteSize)) = later.map (Span.drawIn
        (before.byteSize + M.print.byteSize + rest.print.byteSize)
        (M.print.byteSize - (M.value grammar).byteSize +
          (rest.print.byteSize - (rest.value grammar).byteSize))) := by
    rw [hlater₁, byteSize_append]
    exact hlater.map_drawIn_map_drawIn (by omega) (by omega) (by omega) (by omega) (by omega)
  rw [hmap] at hrun₃
  simp only [append_assoc] at hrun₃
  exact hrun₁.append (hrun₂.append hrun₃)

/-- The span starts in the stretch from `lo` to `hi`, but not in the part of it from `start` to
`stop`. -/
def Dropped (lo start stop hi : Nat) (span : Span) : Prop :=
  lo ≤ span.start ∧ span.start < hi ∧ (span.start < start ∨ stop ≤ span.start)

/-- A splice that keeps the template `M` clears the other spans of the stretch. -/
theorem exists_splice_keep (M : Template) {before lead trail : Text} (after : Text) (done : SpanSet)
    {front back : SpanSet} (hstart : before.byteSize + lead.byteSize = start)
    (hstop : start + M.print.byteSize = stop) (hhi : stop + trail.byteSize = hi)
    (hfront : ∀ span ∈ front, Dropped before.byteSize start stop hi span)
    (hback : ∀ span ∈ back, Dropped before.byteSize start stop hi span)
    (hlater : later.Clear before.byteSize hi) :
    ∃ done' front' back' : SpanSet, done'.length = done.length ∧ front'.length = front.length ∧
      back'.length = back.length ∧ front'.Gone ∧ back'.Gone ∧
      splice (done ++ (front ++ (M.spans start ++ (back ++ later))))
        (before ++ (lead ++ (M.print ++ (trail ++ after)))) ⟨before.byteSize, hi⟩ ⟨start, stop⟩ =
      .ok (before ++ (M.print ++ after), done' ++ (front' ++ (M.spans before.byteSize ++
        (back' ++ later.map (Span.drawIn hi (hi - before.byteSize - M.print.byteSize)))))) := by
  obtain ⟨after', hafter'⟩ : ∃ after' : Span → Span, after' =
      Span.afterSplice ⟨before.byteSize, hi⟩ ⟨start, stop⟩ := ⟨_, rfl⟩
  have hmoved : (M.spans start).map after' = M.spans before.byteSize := by
    rw [hafter']
    exact M.map_afterSplice_spans ⟨before.byteSize, hi⟩ ⟨start, stop⟩ (by simp only; omega)
      (by simp only; omega)
  have hloss : Extent.size ⟨before.byteSize, hi⟩ - Extent.size ⟨start, stop⟩ =
      hi - before.byteSize - M.print.byteSize := by
    simp only [Extent.size]
    omega
  have hsplice : splice (done ++ (front ++ (M.spans start ++ back)) ++ later)
      (before ++ (lead ++ (M.print ++ (trail ++ after)))) ⟨before.byteSize, hi⟩ ⟨start, stop⟩ = _ :=
    Clear.splice_append hlater _ rfl hstart hstop hhi
  rw [hloss, ← hafter', map_append, map_append, map_append, hmoved] at hsplice
  simp only [append_assoc] at hsplice
  have hgone : ∀ spans : SpanSet, (∀ span ∈ spans, Dropped before.byteSize start stop hi span) →
      Gone (spans.map after') := by
    intro spans hdropped span' hmem
    obtain ⟨span, hspan, rfl⟩ := List.mem_map.1 hmem
    obtain ⟨hlo, hlt, hout⟩ := hdropped span hspan
    rw [hafter']
    exact Span.valid_afterSplice_of_target hlo hlt hout
  exact ⟨done.map after', front.map after', back.map after', by simp, by simp, by simp,
    hgone front hfront, hgone back hback, hsplice⟩

/-- The step at a branch of the tree that keeps the template `M`, and the steps after it. -/
theorem Resolves.branch {M : Template} (hM : Resolves grammar M) (hrest : Resolves grammar rest)
    {branch : Branch} (before lead trail after : Text) (done front back later : SpanSet)
    (skipped kept skipped' last : List Branch) {size : Nat}
    (hstart : before.byteSize + lead.byteSize = start) (hstop : start + M.print.byteSize = stop)
    (hhi : stop + trail.byteSize = hi) (hsize : hi + rest.print.byteSize = before.byteSize + size)
    (hfront : ∀ span ∈ front, Dropped before.byteSize start stop hi span)
    (hback : ∀ span ∈ back, Dropped before.byteSize start stop hi span)
    (hlater : later.Clear before.byteSize (before.byteSize + size))
    (hbranch : resolveIn grammar (before ++ (lead ++ (M.print ++ (trail ++ (rest.print ++ after)))),
        done ++ (front ++ (M.spans start ++ (back ++ (rest.spans hi ++ later))))) branch =
      splice (done ++ (front ++ (M.spans start ++ (back ++ (rest.spans hi ++ later)))))
        (before ++ (lead ++ (M.print ++ (trail ++ (rest.print ++ after)))))
        ⟨before.byteSize, hi⟩ ⟨start, stop⟩) {first' first'' : Nat}
    (hfirst : done.length + front.length = first) (hfirst' : first + M.count = first')
    (hfirst'' : first' + back.length = first'')
    (htotal : first'' + rest.count + later.length = total)
    (hskipped : ∀ branch ∈ skipped, branch.Between done.length first total)
    (hkept : Links total M first kept)
    (hskipped' : ∀ branch ∈ skipped', branch.Between first' first'' total)
    (hlast : Links total rest first'' last) :
    ∃ done' : SpanSet, done'.length = first'' + rest.count ∧
      Runs grammar (branch :: (skipped ++ (kept ++ (skipped' ++ last))))
        (before ++ (lead ++ (M.print ++ (trail ++ (rest.print ++ after)))),
          done ++ (front ++ (M.spans start ++ (back ++ (rest.spans hi ++ later)))))
        (before ++ (M.value grammar ++ (rest.value grammar ++ after)), done' ++ later.map
          (Span.drawIn (before.byteSize + size) (size -
            ((M.value grammar).byteSize + (rest.value grammar).byteSize)))) := by
  have hMvalue := byteSize_value_le grammar M
  have hrestValue := byteSize_value_le grammar rest
  have hwait : Clear before.byteSize hi (rest.spans hi ++ later) :=
    clear_append.2 ⟨Nest.clear_spans _ (Nat.le_refl _), hlater.mono (Nat.le_refl _) (by omega)⟩
  obtain ⟨done₁, front₁, back₁, hdone₁, hfront₁, hback₁, hfrontGone, hbackGone, hsplice⟩ :=
    M.exists_splice_keep (rest.print ++ after) done hstart hstop hhi hfront hback hwait
  have hplace : hi - (hi - before.byteSize - M.print.byteSize) =
      before.byteSize + M.print.byteSize := by
    omega
  rw [map_append, rest.map_drawIn_spans (Nat.le_refl _) (by omega), hplace] at hsplice
  have hclear : Clear before.byteSize (before.byteSize + M.print.byteSize +
      rest.print.byteSize) (later.map (Span.drawIn hi (hi - before.byteSize - M.print.byteSize))) :=
    (hlater.drawIn (by omega) (by omega) (by omega)).mono (Nat.le_refl _) (by omega)
  have hskip : Runs grammar skipped
      (before ++ (M.print ++ (rest.print ++ after)), done₁ ++ (front₁ ++
        (M.spans before.byteSize ++ (back₁ ++ (rest.spans (before.byteSize + M.print.byteSize) ++
          later.map (Span.drawIn hi (hi - before.byteSize - M.print.byteSize)))))))
      (before ++ (M.print ++ (rest.print ++ after)), done₁ ++ (front₁ ++
        (M.spans before.byteSize ++ (back₁ ++ (rest.spans (before.byteSize + M.print.byteSize) ++
          later.map (Span.drawIn hi (hi - before.byteSize - M.print.byteSize))))))) := by
    refine runs_of_gone _ hfrontGone ?_ (by rwa [hdone₁, hfront₁, hfirst])
    simp only [length_append, length_spans, length_map]
    omega
  have hlength : (done₁ ++ front₁).length = first := by
    rw [length_append, hdone₁, hfront₁, hfirst]
  rw [← hback₁] at hfirst''
  subst hfirst'' hfirst' hlength
  obtain ⟨done₂, hdone₂, hrun⟩ := hM.append hrest before after (done₁ ++ front₁) back₁ _ hbackGone
    (by rw [length_map]; exact htotal) hkept hskipped' hlast hclear
  rw [hlater.map_drawIn_map_drawIn (by omega) (by omega) (by omega) (by omega) (by omega)] at hrun
  have hloss : hi - before.byteSize - M.print.byteSize + (M.print.byteSize -
      (M.value grammar).byteSize + (rest.print.byteSize - (rest.value grammar).byteSize)) =
      size - ((M.value grammar).byteSize + (rest.value grammar).byteSize) := by
    omega
  rw [hloss] at hrun
  simp only [append_assoc] at hrun
  exact ⟨done₂, hdone₂, runs_cons (hbranch.trans hsplice) (hskip.append hrun)⟩

/-- The spans of a template, and one before and one after them, that are all dropped. -/
theorem dropped_cons_spans {first : Span}
    (hfirst : Dropped lo start stop hi first) (hlast : Dropped lo start stop hi last)
    (hlo : lo ≤ place) (hhi : place + T.print.byteSize ≤ hi)
    (hout : place + T.print.byteSize ≤ start ∨ stop ≤ place) :
    ∀ span ∈ (first :: (T.spans place ++ [last]) : SpanSet), Dropped lo start stop hi span := by
  intro span hmem
  simp only [mem_cons, mem_append, not_mem_nil, or_false] at hmem
  rcases hmem with rfl | hmem | rfl
  · exact hfirst
  · obtain ⟨hplace, hlt, hstop⟩ := bounds_of_mem_spans hmem
    exact ⟨by omega, by omega, by omega⟩
  · exact hlast

theorem resolves_nil (grammar : Grammar) : Resolves grammar nil := by
  intro before after done later branches total _ hlinks _
  cases hlinks
  refine ⟨done, rfl, ?_⟩
  have hrun : Runs grammar [] (before ++ after, done ++ later) (before ++ after, done ++ later) :=
    runs_nil _
  simpa [print, value] using hrun

theorem slice_condition (condition : Plain) (body : Template) (before after : Text) :
    (before ++ (choice condition body ++ after)).slice (before.byteSize + 1)
      (before.byteSize + condition.text.byteSize + 2 - 1) = .ok condition.text := by
  have hslice : (before ++ ['\x7b'] ++ (condition.text ++ '\x7d' :: '?' :: '\x7b' ::
      (body.print ++ '\x7d' :: after))).slice (before.byteSize + 1)
      (before.byteSize + condition.text.byteSize + 2 - 1) = .ok condition.text :=
    slice_append (by simp) (by simp; omega)
  simpa [choice] using hslice

theorem get_ifTrue (done later : SpanSet) (condition ifTrue : Span) (body : Template)
    (place : Nat) : get (done ++ (condition :: (body.spans place ++ (ifTrue :: later))))
      (done.length + 1 + body.count) = .ok ifTrue := by
  have hget := get_append_cons (done ++ condition :: body.spans place) later ifTrue
  simpa [Nat.add_assoc, Nat.add_comm 1] using hget

theorem get_ifFalse (done later : SpanSet) (condition ifTrue ifFalse : Span)
    (body other : Template) (place place' : Nat) :
    get (done ++ (condition :: (body.spans place ++ (ifTrue :: (other.spans place' ++
      (ifFalse :: later)))))) (done.length + 1 + body.count + 1 + other.count) = .ok ifFalse := by
  have hget := get_ifTrue (done ++ condition :: body.spans place) later ifTrue ifFalse other place'
  simpa [Nat.add_assoc, Nat.add_comm 1] using hget

/-- The step at a branch of the tree. -/
theorem resolveIn_choice (grammar : Grammar) (condition : Plain) (body : Template)
    (before after : Text) (done later : SpanSet)
    (hplace : before.byteSize + condition.text.byteSize = place) (ifFalse : Option Nat)
    (hvalid : last.valid)
    (hlast : get (done ++ (⟨before.byteSize, place + 2, true⟩ :: (body.spans (place + 4) ++
      (⟨place + 3, place + body.print.byteSize + 5, true⟩ :: later))))
      (ifFalse.getD (done.length + 1 + body.count)) = .ok last) :
    resolveIn grammar (before ++ (choice condition body ++ after),
        done ++ (⟨before.byteSize, place + 2, true⟩ :: (body.spans (place + 4) ++
          (⟨place + 3, place + body.print.byteSize + 5, true⟩ :: later))))
        ⟨done.length, done.length + 1 + body.count, ifFalse⟩ =
      splice (done ++ (⟨before.byteSize, place + 2, true⟩ :: (body.spans (place + 4) ++
          (⟨place + 3, place + body.print.byteSize + 5, true⟩ :: later))))
        (before ++ (choice condition body ++ after)) ⟨before.byteSize, last.stop⟩
        (if Condition.holds grammar condition.text then
          ⟨place + 4, place + body.print.byteSize + 4⟩
        else if ifFalse.isSome then last.inner else ⟨before.byteSize, before.byteSize⟩) := by
  have hslice := slice_condition condition body before after
  rw [hplace] at hslice
  exact resolveIn_of_valid ⟨before.byteSize, place + 2, true⟩
    ⟨place + 3, place + body.print.byteSize + 5, true⟩ (get_append_cons _ _ _)
    (get_ifTrue _ _ _ _ _ _) hlast ⟨rfl, rfl, hvalid⟩ hslice

/-- A branch without an else part. -/
theorem Resolves.ifThen {body : Template} (hbody : Resolves grammar body)
    (hrest : Resolves grammar rest) (condition : Plain) :
    Resolves grammar (ifThen condition body rest) := by
  intro before after done later branches total htotal hlinks hlater
  cases hlinks with | @ifThen _ _ _ _ inner stray last hinner hstray hlast => ?_
  obtain ⟨place, hplace⟩ : ∃ place, before.byteSize + condition.text.byteSize = place := ⟨_, rfl⟩
  have hstep := resolveIn_choice grammar condition body before (rest.print ++ after)
    done (rest.spans (place + body.print.byteSize + 5) ++ later) hplace none rfl
    (get_ifTrue done _ _ _ body (place + 4))
  rw [count_ifThen] at *
  rw [print_ifThen, byteSize_append, byteSize_choice] at *
  rw [spans_ifThen, hplace, value]
  cases hholds : Condition.holds grammar condition.text with
  | true =>
    rw [hholds, choice_eq, append_assoc, append_assoc] at hstep
    obtain ⟨done', hdone', hrun⟩ := hbody.branch hrest before (conditionText condition) ['\x7d']
      after done [⟨before.byteSize, place + 2, true⟩]
      [⟨place + 3, place + body.print.byteSize + 5, true⟩] later [] inner stray last
      (by rw [byteSize_conditionText]; omega) (by omega)
      (show _ = place + body.print.byteSize + 5 from rfl) (by omega) (by simp [Dropped]; omega)
      (by simp [Dropped]; omega) hlater hstep (by rfl) (by rfl) (by rfl) (by omega) (by simp) hinner
      (fun branch hmem => (hstray branch hmem).between) hlast
    exact ⟨done', by omega, by simpa [choice_eq] using hrun⟩
  | false =>
    rw [hholds] at hstep
    have hskipped : ∀ branch ∈ inner ++ stray,
        branch.Between done.length (done.length + 1 + body.count + 1) total :=
      hinner.between_append hstray (by omega) (by omega) (by omega)
    obtain ⟨done', hdone', hrun⟩ := (resolves_nil grammar).branch hrest before []
      (choice condition body) after done [] (⟨before.byteSize, place + 2, true⟩ ::
        (body.spans (place + 4) ++ [⟨place + 3, place + body.print.byteSize + 5, true⟩])) later
      [] [] (inner ++ stray) last (show _ = before.byteSize from rfl)
      (show _ = before.byteSize from rfl)
      (show _ = place + body.print.byteSize + 5 by rw [byteSize_choice]; omega) (by omega)
      (by simp) (dropped_cons_spans (by simp only [Dropped]; omega) (by simp only [Dropped]; omega)
        (by omega) (by omega) (by omega)) hlater (by simpa [print] using hstep) (by rfl) (by rfl)
      (by simp only [length_cons, length_append, length_spans, length_nil]; omega)
      (by omega) (by simp) .nil hskipped hlast
    exact ⟨done', by omega, by simpa [print, value] using hrun⟩

theorem alternative_eq (other : Template) :
    alternative other = [':', '\x7b'] ++ (other.print ++ ['\x7d']) := by
  simp [alternative]

/-- A branch with an else part. -/
theorem Resolves.ifThenElse {body other : Template} (hbody : Resolves grammar body)
    (hother : Resolves grammar other) (hrest : Resolves grammar rest) (condition : Plain) :
    Resolves grammar (ifThenElse condition body other rest) := by
  intro before after done later branches total htotal hlinks hlater
  cases hlinks with
  | @ifThenElse _ _ _ _ _ inner stray inner' stray' last hinner hstray hinner' hstray' hlast => ?_
  obtain ⟨place, hplace⟩ : ∃ place, before.byteSize + condition.text.byteSize = place := ⟨_, rfl⟩
  have hstep := resolveIn_choice grammar condition body before
    (alternative other ++ (rest.print ++ after)) done
    (other.spans (place + body.print.byteSize + 7) ++ (⟨place + body.print.byteSize + 6,
      place + body.print.byteSize + other.print.byteSize + 8, true⟩ ::
        (rest.spans (place + body.print.byteSize + other.print.byteSize + 8) ++ later))) hplace
    (some (done.length + 1 + body.count + 1 + other.count)) rfl
    (get_ifFalse done _ _ _ _ body other (place + 4) (place + body.print.byteSize + 7))
  rw [count_ifThenElse] at *
  rw [print_ifThenElse, byteSize_append, byteSize_append, byteSize_choice,
    byteSize_alternative] at *
  rw [spans_ifThenElse, hplace, value]
  cases hholds : Condition.holds grammar condition.text with
  | true =>
    rw [hholds, choice_eq, append_assoc, append_assoc] at hstep
    have hskipped : ∀ branch ∈ stray ++ (inner' ++ stray'), branch.Between
        (done.length + 1 + body.count) (done.length + 1 + body.count + 1 + other.count + 1)
          total := by
      refine forall_mem_append.2 ⟨fun branch hmem => ?_, ?_⟩
      · exact (hstray branch hmem).between.mono (by omega) (by omega)
      · exact hinner'.between_append hstray' (by omega) (by omega) (by omega)
    obtain ⟨done', hdone', hrun⟩ := hbody.branch hrest before (conditionText condition)
      ('\x7d' :: alternative other) after done [⟨before.byteSize, place + 2, true⟩]
      (⟨place + 3, place + body.print.byteSize + 5, true⟩ ::
        (other.spans (place + body.print.byteSize + 7) ++ [⟨place + body.print.byteSize + 6,
          place + body.print.byteSize + other.print.byteSize + 8, true⟩])) later
      [] inner (stray ++ (inner' ++ stray')) last
      (show _ = place + 4 by rw [byteSize_conditionText]; omega)
      (show _ = place + body.print.byteSize + 4 by omega)
      (show _ = place + body.print.byteSize + other.print.byteSize + 8 by
        rw [byteSize_cons, byteSize_alternative, utf8Size_closeBrace]
        omega)
      (by omega) (by simp [Dropped]; omega)
      (dropped_cons_spans (by simp only [Dropped]; omega) (by simp only [Dropped]; omega)
        (by omega) (by omega) (by omega)) hlater (by simpa using hstep) (by rfl) (by rfl)
      (by simp only [length_cons, length_append, length_spans, length_nil]; omega)
      (by omega) (by simp) hinner hskipped hlast
    exact ⟨done', by omega, by simpa [choice_eq] using hrun⟩
  | false =>
    rw [hholds] at hstep
    have hskipped : ∀ branch ∈ inner ++ stray,
        branch.Between done.length (done.length + 1 + body.count + 1) total :=
      hinner.between_append hstray (by omega) (by omega) (by omega)
    obtain ⟨done', hdone', hrun⟩ := hother.branch hrest before
      (choice condition body ++ [':', '\x7b']) ['\x7d'] after done
      (⟨before.byteSize, place + 2, true⟩ :: (body.spans (place + 4) ++
        [⟨place + 3, place + body.print.byteSize + 5, true⟩]))
      [⟨place + body.print.byteSize + 6,
        place + body.print.byteSize + other.print.byteSize + 8, true⟩] later
      (inner ++ stray) inner' stray' last
      (show _ = place + body.print.byteSize + 7 by
        simp only [byteSize_append, byteSize_choice, byteSize_cons, byteSize_nil,
          utf8Size_colon, utf8Size_openBrace]
        omega)
      (show _ = place + body.print.byteSize + other.print.byteSize + 7 by omega)
      (show _ = place + body.print.byteSize + other.print.byteSize + 8 from rfl) (by omega)
      (dropped_cons_spans (by simp only [Dropped]; omega) (by simp only [Dropped]; omega)
        (by omega) (by omega) (by omega)) (by simp [Dropped]; omega) hlater
      (by simpa [alternative_eq, Span.inner] using hstep)
      (by simp only [length_cons, length_append, length_spans, length_nil]; omega)
      (by rfl) (by rfl) (by omega) hskipped hinner'
      (fun branch hmem => (hstray' branch hmem).between) hlast
    exact ⟨done', by omega, by simpa [alternative_eq] using hrun⟩

theorem resolves (grammar : Grammar) (T : Template) : Resolves grammar T := by
  induction T with
  | nil => exact resolves_nil grammar
  | text s rest ih =>
    intro before after done later branches total htotal hlinks hlater
    cases hlinks with | text hlinks => ?_
    rw [print, byteSize_append] at hlater
    obtain ⟨done', hdone', hrun⟩ := ih (before ++ s.text) after done later branches total
      (by simpa using htotal) hlinks
      (hlater.mono (by simp) (by simp only [byteSize_append]; omega))
    refine ⟨done', by simpa using hdone', ?_⟩
    have hloss : s.text.byteSize + rest.print.byteSize -
        (s.text.byteSize + (rest.value grammar).byteSize) =
        rest.print.byteSize - (rest.value grammar).byteSize := by
      omega
    simpa [print, value, Nat.add_assoc, hloss] using hrun
  | ifThen condition body rest ihb ihr => exact ihb.ifThen ihr condition
  | ifThenElse condition body other rest ihb iho ihr => exact ihb.ifThenElse iho ihr condition

/-- Resolving a printed template gives its meaning. -/
theorem resolve_print (grammar : Grammar) (T : Template) (hT : T.Apart) :
    Branch.resolve grammar T.print = .ok (T.value grammar) := by
  obtain ⟨branches, hlinks, hlink⟩ := T.exists_link_print hT
  obtain ⟨done, -, hrun⟩ := resolves grammar T [] [] [] [] branches T.count (by simp) hlinks
    (fun span hmem => by simp at hmem)
  simp only [Runs, List.nil_append, List.append_nil, Text.byteSize_nil, List.map_nil] at hrun
  simp only [Branch.resolve, find_print, hlink, hrun, ok_bind]
  rfl

/-- Two branches with a question mark between them, the first one with a branch inside. -/
def sample : Template :=
  ifThen ⟨"1".toList, by decide, by decide⟩
    (ifThenElse ⟨"a == b".toList, by decide, by decide⟩
      (text ⟨"x".toList, by decide, by decide⟩ nil)
      (text ⟨"y".toList, by decide, by decide⟩ nil) nil)
    (text ⟨" ? ".toList, by decide, by decide⟩
      (ifThen ⟨"0".toList, by decide, by decide⟩
        (text ⟨"z".toList, by decide, by decide⟩ nil) nil))

theorem resolve_print_sample : sample.Apart ∧ Branch.resolve .extended
    "\x7b1\x7d?\x7b\x7ba == b\x7d?\x7bx\x7d:\x7by\x7d\x7d ? \x7b0\x7d?\x7bz\x7d".toList =
      .ok "y ? ".toList := by
  have happart : sample.Apart := by decide
  exact ⟨happart, resolve_print .extended sample happart⟩

end Template

end SqlScript
