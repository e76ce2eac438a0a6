import SqlScript.Proofs.Nest

/-!
# Spans at the margin of a splice

Many splices are made inside one stretch of text while the spans after the stretch, and those around
it, wait for their turn. Each splice takes some bytes away, and for a waiting span it does not
matter where in the stretch (`Span.Clear.drawIn_edge`) nor in how many steps
(`Span.Clear.drawIn_drawIn`) : all of them together draw it in by the bytes lost (`Span.drawIn`).
-/

namespace SqlScript

open List SpanSet

variable {source target : Extent} {edge loss : Nat}

@[simp] theorem SpanSet.get_append_cons (done later : SpanSet) (span : Span) :
    get (done ++ span :: later) done.length = .ok span := by
  simp [get]

/-- The splice of a text whose parts are known. -/
theorem SpanSet.splice_append (spans : SpanSet) {before lead new trail after : Text}
    (hbefore : before.byteSize = target.start) (hlead : target.start + lead.byteSize = source.start)
    (hnew : source.start + new.byteSize = source.stop)
    (htrail : source.stop + trail.byteSize = target.stop) :
    spans.splice (before ++ (lead ++ (new ++ (trail ++ after)))) target source =
      .ok (before ++ (new ++ after), spans.map (Span.afterSplice target source)) := by
  have hpart : (before ++ lead ++ (new ++ (trail ++ after))).slice source.start source.stop =
      .ok new :=
    Text.slice_append (by rw [Text.byteSize_append]; omega) (by rw [Text.byteSize_append]; omega)
  have hto : (before ++ (lead ++ (new ++ (trail ++ after)))).sliceTo target.start = .ok before :=
    Text.sliceTo_append hbefore
  have hfrom : (before ++ (lead ++ (new ++ trail)) ++ after).sliceFrom target.stop = .ok after :=
    Text.sliceFrom_append (by simp only [Text.byteSize_append]; omega)
  simp only [append_assoc] at hpart hfrom
  simp only [splice, hpart, hto, hfrom, ok_bind, append_assoc]
  rfl

namespace Span

/-- The span, if valid, stands after the bytes from `lo` to `hi` or has them between its
delimiters. -/
def Clear (lo hi : Nat) (span : Span) : Prop :=
  span.valid = true → hi ≤ span.start ∨ (span.start < lo ∧ hi < span.stop)

/-- The span after some bytes before `edge` are gone. -/
def drawIn (edge loss : Nat) (span : Span) : Span :=
  if !span.valid then span
  else if edge ≤ span.start then ⟨span.start - loss, span.stop - loss, true⟩
  else ⟨span.start, span.stop - loss, true⟩

@[simp] theorem valid_drawIn (edge loss : Nat) (span : Span) :
    (span.drawIn edge loss).valid = span.valid := by
  unfold drawIn
  split
  · rfl
  · split <;> simp_all

@[simp] theorem drawIn_zero (edge : Nat) : drawIn edge 0 = id := by
  funext ⟨start, stop, valid⟩
  cases valid <;> simp [drawIn]

variable {lo hi : Nat} {span : Span}

theorem Clear.mono (h : span.Clear lo hi) {lo' hi' : Nat} (hlo : lo ≤ lo') (hhi : hi' ≤ hi) :
    span.Clear lo' hi' := by
  intro hv
  rcases h hv with h | h
  · exact .inl (by omega)
  · exact .inr (by omega)

/-- It does not matter where in the stretch the bytes were. -/
theorem Clear.drawIn_edge (h : span.Clear lo hi) (hlo : lo ≤ edge) (hhi : edge ≤ hi)
    (loss : Nat) : span.drawIn edge loss = span.drawIn hi loss := by
  obtain ⟨start, stop, valid⟩ := span
  cases valid with
  | false => rfl
  | true =>
    simp only [drawIn]
    rcases h rfl with h | h <;> simp only at h
    · rw [if_pos (show edge ≤ start by omega), if_pos h]
    · rw [if_neg (show ¬edge ≤ start by omega), if_neg (show ¬hi ≤ start by omega)]

theorem Clear.drawIn (h : span.Clear lo hi) (hle : lo ≤ hi) (hloss : loss ≤ hi) :
    (span.drawIn hi loss).Clear lo (hi - loss) := by
  obtain ⟨start, stop, valid⟩ := span
  cases valid with
  | false => exact fun hv => absurd hv (by simp)
  | true =>
    intro _
    unfold Span.drawIn
    rcases h rfl with h | h <;> simp only at h
    · rw [if_neg (by simp), if_pos h]
      exact .inl (by simp only; omega)
    · rw [if_neg (by simp), if_neg (show ¬hi ≤ start by omega)]
      exact .inr (by simp only; omega)

/-- Losses add up. -/
theorem Clear.drawIn_drawIn (h : span.Clear lo hi) (hloss : loss ≤ hi)
    (loss' : Nat) (hlo : lo ≤ hi - loss) :
    (span.drawIn hi loss).drawIn (hi - loss) loss' = span.drawIn hi (loss + loss') := by
  obtain ⟨start, stop, valid⟩ := span
  cases valid with
  | false => rfl
  | true =>
    unfold Span.drawIn
    rcases h rfl with h | h <;> simp only at h
    · simp only [Bool.not_true, Bool.false_eq_true, if_false, if_pos h]
      rw [if_pos (by omega), Nat.sub_sub, Nat.sub_sub]
    · simp only [Bool.not_true, Bool.false_eq_true, if_false, if_neg (show ¬hi ≤ start by omega)]
      rw [if_neg (by omega), Nat.sub_sub]

/-- A splice of the stretch draws a waiting span in. -/
theorem Clear.afterSplice (h : span.Clear target.start target.stop)
    (hin : target.start ≤ source.start ∧ source.start ≤ source.stop ∧ source.stop ≤ target.stop) :
    span.afterSplice target source = span.drawIn target.stop (target.size - source.size) := by
  obtain ⟨start, stop, valid⟩ := span
  cases valid with
  | false => rfl
  | true =>
    simp only [Span.afterSplice, Span.drawIn, moveBy, Bool.not_true, Bool.false_eq_true, if_false,
      Extent.size]
    rcases h rfl with h | h <;> simp only at h
    · have hc : source.contains start = false := by
        simp only [Extent.contains, Bool.and_eq_false_iff, decide_eq_false_iff_not]
        omega
      rw [if_pos (by omega), hc, if_neg (by simp), if_pos h, if_pos h]
      congr 1 <;> omega
    · rw [if_neg (by omega), if_pos h.2, if_neg (by omega)]
      congr 1
      omega

end Span

/-! ## Waiting span sets -/

namespace SpanSet

/-- All the spans wait after the bytes from `lo` to `hi` or around them. -/
def Clear (lo hi : Nat) (spans : SpanSet) : Prop :=
  ∀ span ∈ spans, span.Clear lo hi

variable {lo hi : Nat} {spans : SpanSet}

theorem Clear.mono (h : spans.Clear lo hi) {lo' hi' : Nat} (hlo : lo ≤ lo') (hhi : hi' ≤ hi) :
    spans.Clear lo' hi' :=
  fun span hmem => (h span hmem).mono hlo hhi

theorem Clear.drawIn (h : spans.Clear lo hi) (hlo : lo ≤ edge)
    (hhi : edge ≤ hi) (hloss : loss ≤ hi) :
    Clear lo (hi - loss) (spans.map (Span.drawIn edge loss)) := by
  intro span' hmem'
  obtain ⟨span, hmem, rfl⟩ := mem_map.1 hmem'
  rw [(h span hmem).drawIn_edge hlo hhi]
  exact (h span hmem).drawIn (Nat.le_trans hlo hhi) hloss

theorem Clear.map_drawIn_map_drawIn (h : spans.Clear lo hi) {edge' loss' : Nat}
    (hlo : lo ≤ edge) (hhi : edge ≤ hi) (hloss : loss ≤ hi) (hlo' : lo ≤ edge')
    (hhi' : edge' ≤ hi - loss) :
    (spans.map (Span.drawIn edge loss)).map (Span.drawIn edge' loss') =
      spans.map (Span.drawIn hi (loss + loss')) := by
  rw [map_map]
  refine map_congr_left fun span hmem => ?_
  have hspan := h span hmem
  have hdrawn := hspan.drawIn (Nat.le_trans hlo hhi) hloss
  rw [Function.comp_apply, hspan.drawIn_edge hlo hhi, hdrawn.drawIn_edge hlo' hhi',
    hspan.drawIn_drawIn hloss _ (Nat.le_trans hlo' hhi')]

theorem Clear.map_afterSplice (h : spans.Clear target.start target.stop)
    (hin : target.start ≤ source.start ∧ source.start ≤ source.stop ∧ source.stop ≤ target.stop) :
    spans.map (Span.afterSplice target source) =
      spans.map (Span.drawIn target.stop (target.size - source.size)) :=
  map_congr_left fun span hmem => (h span hmem).afterSplice hin

/-- A splice of the stretch, while `spans` waits. -/
theorem Clear.splice_append (h : spans.Clear target.start target.stop)
    (done : SpanSet) {before lead new trail after : Text} (hbefore : before.byteSize = target.start)
    (hlead : target.start + lead.byteSize = source.start)
    (hnew : source.start + new.byteSize = source.stop)
    (htrail : source.stop + trail.byteSize = target.stop) :
    (done ++ spans).splice (before ++ (lead ++ (new ++ (trail ++ after)))) target source =
      .ok (before ++ (new ++ after), done.map (Span.afterSplice target source) ++
        spans.map (Span.drawIn target.stop (target.size - source.size))) := by
  rw [SpanSet.splice_append _ hbefore hlead hnew htrail, List.map_append,
    h.map_afterSplice (by omega)]

end SpanSet

theorem Nest.clear_spans {opening closing : Char} (N : Nest) {lo hi place : Nat} (h : hi ≤ place) :
    Clear lo hi (N.spans opening closing place) := by
  intro span hmem _
  obtain ⟨hstart, -, -⟩ := bounds_of_mem_spans hmem
  exact .inl (Nat.le_trans h hstart)

/-- A nest that is drawn in as a whole. -/
theorem Nest.map_drawIn_spans {opening closing : Char} (N : Nest) {place : Nat}
    (hedge : edge ≤ place) (hloss : loss ≤ place) :
    (N.spans opening closing place).map (Span.drawIn edge loss) =
      N.spans opening closing (place - loss) := by
  induction N generalizing place with
  | nil => rfl
  | char c rest ih =>
    rw [spans, ih (by omega) (by omega), spans, Nat.sub_add_comm hloss]
  | group inner rest ihi ihr =>
    have hstop : stopAfter opening closing (place - loss) inner =
        stopAfter opening closing place inner - loss := by
      simp only [stopAfter]
      omega
    have hle : place ≤ stopAfter opening closing place inner := by
      simp only [stopAfter]
      omega
    simp only [spans, map_append, map_cons, hstop]
    rw [ihi (by omega) (by omega), ihr (by omega) (by omega), Nat.sub_add_comm hloss]
    simp [Span.drawIn, hedge]

end SqlScript
