import Mathlib.Data.List.Basic
import SqlScript.Proofs.Nest

/-!
# Span sets that stay true to their text

A span set is truthful for a text if every valid span runs from an opening to a closing delimiter
of the text and any two valid spans are nested or share no byte (`SpanSet.Truthful`). The spans that
are found in a text are truthful (`SpanSet.truthful_find`).

A splice is aligned (`SpanSet.Aligned`) if it cuts at places of the text, takes its source from
inside the target, does not cut through a span, and carries whole spans along with the source. What
an aligned splice does to a valid span is one of five things (`Span.afterSplice_cases`) : it stays
before the target, moves with the text after the target, moves with the source, goes away with the
target, or keeps its place around the target. So a span set that is truthful stays truthful
(`SpanSet.Truthful.splice`), through any number of splices (`SpanSet.truthful_of_rewritten`).
-/

namespace SqlScript

open List Text Extent

/-! ## Spans and extents -/

namespace Span

/-- The span and the extent share no byte. -/
def Beside (span : Span) (extent : Extent) : Prop :=
  span.stop ≤ extent.start ∨ extent.stop ≤ span.start

/-- The span lies in the extent. -/
def Within (span : Span) (extent : Extent) : Prop :=
  extent.start ≤ span.start ∧ span.stop ≤ extent.stop

/-- The extent lies between the delimiters of the span. -/
def Around (span : Span) (extent : Extent) : Prop :=
  span.inner.start ≤ extent.start ∧ extent.stop ≤ span.inner.stop

/-- One of the spans lies between the delimiters of the other, or they share no byte. -/
def Nested (a b : Span) : Prop :=
  a.Around ⟨b.start, b.stop⟩ ∨ b.Around ⟨a.start, a.stop⟩ ∨ a.Beside ⟨b.start, b.stop⟩

instance (span : Span) (extent : Extent) : Decidable (span.Beside extent) :=
  inferInstanceAs (Decidable (_ ∨ _))

instance (span : Span) (extent : Extent) : Decidable (span.Within extent) :=
  inferInstanceAs (Decidable (_ ∧ _))

instance (span : Span) (extent : Extent) : Decidable (span.Around extent) :=
  inferInstanceAs (Decidable (_ ∧ _))

end Span

theorem Extent.contains_iff {extent : Extent} {n : Nat} :
    extent.contains n ↔ extent.start ≤ n ∧ n < extent.stop := by
  simp [contains]

/-- The spans of a nest are listed in the order in which they close : a later one has an earlier one
between its delimiters, or stands apart from it. -/
theorem Nest.pairwise_closing (opening closing : Char) (N : Nest) (place : Nat) :
    (N.spans opening closing place).Pairwise fun a b =>
      b.Around ⟨a.start, a.stop⟩ ∨ a.Beside ⟨b.start, b.stop⟩ := by
  induction N generalizing place with
  | nil => exact .nil
  | char c rest ih => exact ih _
  | group inner rest ihi ihr =>
    have ho := opening.utf8Size_pos
    have hc := closing.utf8Size_pos
    simp only [spans, pairwise_append, pairwise_cons, mem_cons]
    refine ⟨ihi _, ⟨fun b hb => ?_, ihr _⟩, fun a ha b hb => ?_⟩
    · obtain ⟨hstart, -, -⟩ := bounds_of_mem_spans hb
      exact .inr (.inl hstart)
    · obtain ⟨hstart, hlt, hstop⟩ := bounds_of_mem_spans ha
      rcases hb with rfl | hb
      · refine .inl ⟨?_, ?_⟩ <;> simp only [Span.inner, stopAfter] <;> omega
      · obtain ⟨hstart', -, -⟩ := bounds_of_mem_spans hb
        simp only [stopAfter] at hstart'
        have hle : a.stop ≤ b.start := by omega
        exact .inr (.inl hle)

/-- The spans of a nest are nested or share no byte. -/
theorem Nest.pairwise_spans (opening closing : Char) (N : Nest) (place : Nat) :
    (N.spans opening closing place).Pairwise Span.Nested :=
  (N.pairwise_closing opening closing place).imp .inr

namespace SpanSet

/-- Every valid span runs from delimiter to delimiter, and any two of them are nested or share no
byte. -/
structure Truthful (opening closing : Char) (t : Text) (spans : SpanSet) : Prop where
  delimited : ∀ span ∈ spans, span.valid = true → ∃ body : Text,
    t.slice? span.start span.stop = some (opening :: (body ++ [closing]))
  nested : spans.Pairwise fun a b => a.valid = true → b.valid = true → a.Nested b

/-- The spans that are found in a text are truthful. -/
theorem truthful_find (opening closing : Char) (t : Text) :
    (find opening closing t).Truthful opening closing t := by
  rw [Nest.find_eq_spans]
  refine ⟨fun span h _ => ?_, ?_⟩
  · obtain ⟨-, a, body, b, htext, hstart, hstop⟩ := Nest.exists_append_of_mem_spans h
    rw [Nest.text_ofText] at htext
    refine ⟨body, slice?_eq_some_iff.2 ⟨a, b, htext, by omega, by omega⟩⟩
  · exact (Nest.pairwise_spans _ _ _ _).imp fun h _ _ => h

/-! ## Aligned splices -/

/-- The splice cuts at places of the text and takes its source from inside the target; no valid
span is cut through, and one that starts in the source ends in it. -/
structure Aligned (t : Text) (spans : SpanSet) (target source : Extent) : Prop where
  within : target.start ≤ source.start ∧ source.start ≤ source.stop ∧ source.stop ≤ target.stop
  places : ∀ n ∈ [target.start, source.start, source.stop, target.stop], t.IsPlace n
  clear : ∀ span ∈ spans, span.valid = true →
    span.Beside target ∨ span.Within target ∨ span.Around target
  carried : ∀ span ∈ spans, span.valid = true → source.contains span.start = true →
    span.stop ≤ source.stop

/-- The parts of a text that an aligned splice cuts : what stands before the target, the target with
the source in the middle, and what follows. -/
theorem Aligned.exists_parts {t : Text} {spans : SpanSet} {target source : Extent}
    (h : spans.Aligned t target source) : ∃ before lead new trail after : Text,
      t = before ++ (lead ++ (new ++ (trail ++ after))) ∧
      before.byteSize = target.start ∧ target.start + lead.byteSize = source.start ∧
      source.start + new.byteSize = source.stop ∧ source.stop + trail.byteSize = target.stop := by
  obtain ⟨h1, h2, h3⟩ := h.within
  obtain ⟨a, a', ha, hsa⟩ := isPlace_iff.1 (h.places target.start (by simp))
  obtain ⟨b, b', hb, hsb⟩ := isPlace_iff.1 (h.places source.start (by simp))
  obtain ⟨c, c', hc, hsc⟩ := isPlace_iff.1 (h.places source.stop (by simp))
  obtain ⟨d, d', hd, hsd⟩ := isPlace_iff.1 (h.places target.stop (by simp))
  obtain ⟨lead, rfl, rfl⟩ := exists_append_of_byteSize_le (ha.symm.trans hb) (by omega)
  obtain ⟨new, rfl, rfl⟩ := exists_append_of_byteSize_le (hb.symm.trans hc) (by omega)
  obtain ⟨trail, rfl, rfl⟩ := exists_append_of_byteSize_le (hc.symm.trans hd) (by omega)
  simp only [byteSize_append] at hsb hsc hsd
  exact ⟨a, lead, new, trail, d', ha, hsa, by omega, by omega, by omega⟩

end SpanSet

/-- A splice makes no span valid again. -/
theorem Span.valid_of_afterSplice {target source : Extent} {span : Span}
    (h : (span.afterSplice target source).valid) : span.valid := by
  cases hv : span.valid with
  | true => rfl
  | false => simp [afterSplice, hv] at h

/-- What an aligned splice does to a valid span. -/
theorem Span.afterSplice_cases {target source : Extent} {span : Span}
    (hin : target.start ≤ source.start ∧ source.start ≤ source.stop ∧ source.stop ≤ target.stop)
    (hv : span.valid) (hlt : span.start < span.stop)
    (hclear : span.Beside target ∨ span.Within target ∨ span.Around target)
    (hcarried : source.contains span.start → span.stop ≤ source.stop) :
    (span.stop ≤ target.start ∧ span.afterSplice target source = span) ∨
    (target.stop ≤ span.start ∧ span.afterSplice target source =
      ⟨span.start - target.stop + (target.start + source.size),
        span.stop - target.stop + (target.start + source.size), true⟩) ∨
    (source.start ≤ span.start ∧ span.stop ≤ source.stop ∧ span.afterSplice target source =
      ⟨span.start - source.start + target.start, span.stop - source.start + target.start, true⟩) ∨
    (target.start ≤ span.start ∧ span.stop ≤ target.stop ∧ source.contains span.start = false ∧
      (span.afterSplice target source).valid = false) ∨
    (span.Around target ∧ span.afterSplice target source =
      ⟨span.start, span.stop - target.stop + (target.start + source.size), true⟩) := by
  obtain ⟨start, stop, valid⟩ := span
  obtain rfl : valid := hv
  simp only [Beside, Within, Around, inner, contains_iff] at *
  by_cases hin' : source.start ≤ start ∧ start < source.stop
  · have hc : source.contains start := contains_iff.2 hin'
    have := hcarried hin'
    refine .inr (.inr (.inl ⟨hin'.1, this, ?_⟩))
    simp only [afterSplice, Bool.not_true, Bool.false_eq_true, if_false, moveBy, hc, if_true]
    rw [if_pos (by omega)]
    congr 1 <;> omega
  · have hc : source.contains start = false := by
      rw [← Bool.not_eq_true, contains_iff]
      exact hin'
    simp only [afterSplice, Bool.not_true, Bool.false_eq_true, if_false, moveBy, hc, size] at *
    rcases hclear with (h | h) | h | h
    · refine .inl ⟨h, ?_⟩
      rw [if_neg (by omega), if_neg (by omega)]
    · refine .inr (.inl ⟨h, ?_⟩)
      rw [if_pos (by omega), if_pos h]
      congr 1 <;> omega
    · refine .inr (.inr (.inr (.inl ⟨h.1, h.2, trivial, ?_⟩)))
      rw [if_pos h.1, if_neg (by omega)]
    · refine .inr (.inr (.inr (.inr ⟨h, ?_⟩)))
      rw [if_neg (by omega), if_pos (by omega)]
      congr 1
      omega

/-! ## What a splice does to a span set -/

/-- What became of a valid span when `t` was spliced into `t'`. -/
structure Span.Followed (t t' : Text) (target source : Extent) (span span' : Span) : Prop where
  gone_iff : span'.valid = false ↔
    target.contains span.start = true ∧ source.contains span.start = false
  kept : span.Beside target ∨ span.Within source →
    t'.slice? span'.start span'.stop = t.slice? span.start span.stop
  replaced : span.Around target → ∃ front old new back : Text,
    t.slice? target.start target.stop = some old ∧ t.slice? source.start source.stop = some new ∧
    span.start + front.byteSize = target.start ∧
    t.slice? span.start span.stop = some (front ++ (old ++ back)) ∧
    t'.slice? span'.start span'.stop = some (front ++ (new ++ back))

/-- The text and the spans after a splice. -/
structure SpanSet.Spliced (opening closing : Char) (t : Text) (spans : SpanSet)
    (target source : Extent) (t' : Text) (spans' : SpanSet) : Prop where
  text : ∃ before old new after : Text, t = before ++ (old ++ after) ∧
    before.byteSize = target.start ∧ target.start + old.byteSize = target.stop ∧
    t.slice? source.start source.stop = some new ∧ t' = before ++ (new ++ after)
  truthful : spans'.Truthful opening closing t'
  length_eq : spans'.length = spans.length
  followed : ∀ (i : Nat) (span span' : Span), spans[i]? = some span → spans'[i]? = some span' →
    (span.valid = false → span' = span) ∧
    (span.valid = true → span.Followed t t' target source span')

section Parts

variable {before lead new trail after : Text} {target source : Extent} {span : Span}
  (hbefore : before.byteSize = target.start) (hlead : target.start + lead.byteSize = source.start)
  (hnew : source.start + new.byteSize = source.stop)
  (htrail : source.stop + trail.byteSize = target.stop)
include hbefore hlead hnew htrail

/-- The text of a span that stands before the target. -/
theorem slice?_before_target (h : span.stop ≤ target.start) :
    (before ++ (new ++ after)).slice? span.start span.stop =
      (before ++ (lead ++ (new ++ (trail ++ after)))).slice? span.start span.stop := by
  rw [slice?_append_left _ _ (by omega), slice?_append_left _ _ (by omega)]

/-- The text of a span that stands after the target. -/
theorem slice?_after_target (hle : span.start ≤ span.stop) (h : target.stop ≤ span.start) :
    (before ++ (new ++ after)).slice? (span.start - target.stop + (target.start + source.size))
        (span.stop - target.stop + (target.start + source.size)) =
      (before ++ (lead ++ (new ++ (trail ++ after)))).slice? span.start span.stop := by
  have hs : (before ++ new).byteSize = target.start + source.size := by
    simp only [byteSize_append, size]
    omega
  have ht : (before ++ (lead ++ (new ++ trail))).byteSize = target.stop := by
    simp only [byteSize_append]
    omega
  have hnew' := slice?_append_right (before ++ new) after
    (span.start - target.stop + (target.start + source.size))
    (span.stop - target.stop + (target.start + source.size)) (by omega) (by omega)
  have hold := slice?_append_right (before ++ (lead ++ (new ++ trail))) after
    span.start span.stop (by omega) hle
  rw [hs, Nat.add_sub_cancel, Nat.add_sub_cancel] at hnew'
  rw [ht] at hold
  simp only [append_assoc] at hnew' hold
  rw [hnew', hold]

/-- The text of a span that stands in the source. -/
theorem slice?_in_source (hle : span.start ≤ span.stop) (h : source.start ≤ span.start)
    (h' : span.stop ≤ source.stop) :
    (before ++ (new ++ after)).slice? (span.start - source.start + target.start)
        (span.stop - source.start + target.start) =
      (before ++ (lead ++ (new ++ (trail ++ after)))).slice? span.start span.stop := by
  have hs : (before ++ lead).byteSize = source.start := by
    rw [byteSize_append]
    omega
  rw [slice?_append_right before _ _ _ (by omega) (by omega), ← append_assoc before lead,
    slice?_append_right (before ++ lead) _ _ _ (by omega) hle, hs, hbefore, Nat.add_sub_cancel,
    Nat.add_sub_cancel, slice?_append_left _ _ (by omega),
    slice?_append_left _ _ (by omega)]

/-- The text of a span around the target. -/
theorem slice?_around_target {m : Text} (h : span.Around target)
    (hm : (before ++ (lead ++ (new ++ (trail ++ after)))).slice? span.start span.stop = some m) :
    ∃ front back : Text, m = front ++ (lead ++ (new ++ trail) ++ back) ∧ front ≠ [] ∧ back ≠ [] ∧
      span.start + front.byteSize = target.start ∧ (before ++ (new ++ after)).slice? span.start
        (span.stop - target.stop + (target.start + source.size)) =
          some (front ++ (new ++ back)) := by
  simp only [Span.Around, Span.inner] at h
  obtain ⟨a, b, htext, ha, hb⟩ := slice?_eq_some_iff.1 hm
  -- the target starts and stops inside the text of the span
  obtain ⟨front, rfl, hfront⟩ := exists_append_of_byteSize_le htext.symm (by omega)
  rw [byteSize_append] at hbefore
  have hrest : front ++ (lead ++ (new ++ trail)) ++ after = m ++ b := by simp [hfront]
  obtain ⟨back, rfl, rfl⟩ := exists_append_of_byteSize_le hrest
    (by simp only [byteSize_append]; omega)
  simp only [byteSize_append] at hb
  refine ⟨front, back, by simp, ?_, ?_, by omega, ?_⟩
  · rintro rfl
    rw [byteSize_nil] at hbefore
    omega
  · rintro rfl
    rw [byteSize_nil] at hb
    omega
  · refine slice?_eq_some_iff.2 ⟨a, b, by simp, ha, ?_⟩
    simp only [byteSize_append, size]
    omega

end Parts

namespace SpanSet

variable {opening closing : Char} {t : Text} {spans : SpanSet} {target source : Extent}

/-- A span of a truthful set is not empty. -/
theorem Truthful.start_lt_stop (h : spans.Truthful opening closing t) {span : Span}
    (hmem : span ∈ spans) (hv : span.valid) : span.start < span.stop := by
  obtain ⟨body, hbody⟩ := h.delimited span hmem hv
  obtain ⟨a, b, -, ha, hb⟩ := slice?_eq_some_iff.1 hbody
  have := opening.utf8Size_pos
  simp only [byteSize_cons] at hb
  omega

/-- Where the spans are that an aligned splice leaves. -/
theorem Aligned.survivor_cases (ha : spans.Aligned t target source) {span : Span}
    (hmem : span ∈ spans) (hv : span.valid) (hlt : span.start < span.stop) {start stop : Nat}
    (h : span.afterSplice target source = ⟨start, stop, true⟩) :
    (span.stop ≤ target.start ∧ start = span.start ∧ stop = span.stop) ∨
    (target.stop ≤ span.start ∧ start + target.stop = span.start + target.start + source.size ∧
      stop + target.stop = span.stop + target.start + source.size) ∨
    (source.start ≤ span.start ∧ span.stop ≤ source.stop ∧
      start + source.start = span.start + target.start ∧
      stop + source.start = span.stop + target.start) ∨
    (span.start < target.start ∧ target.stop < span.stop ∧ start = span.start ∧
      stop + target.stop = span.stop + target.start + source.size) := by
  have hin := ha.within
  rcases Span.afterSplice_cases hin hv hlt (ha.clear span hmem hv) (ha.carried span hmem hv) with
    ⟨h1, e⟩ | ⟨h1, e⟩ | ⟨h1, h1', e⟩ | ⟨-, -, -, e⟩ | ⟨h1, e⟩
  · rw [h] at e
    exact .inl ⟨h1, by rw [← e], by rw [← e]⟩
  · simp only [h, Span.mk.injEq, and_true] at e
    exact .inr (.inl ⟨h1, by omega, by omega⟩)
  · simp only [h, Span.mk.injEq, and_true] at e
    exact .inr (.inr (.inl ⟨h1, h1', by omega, by omega⟩))
  · simp [h] at e
  · simp only [h, Span.mk.injEq, and_true] at e
    simp only [Span.Around, Span.inner] at h1
    exact .inr (.inr (.inr ⟨by omega, by omega, e.1, by omega⟩))

/-- Aligned splices keep any two spans nested or apart. -/
theorem Aligned.nested_afterSplice (ha : spans.Aligned t target source) {a b : Span}
    (hmema : a ∈ spans) (hmemb : b ∈ spans) (hva : a.valid) (hvb : b.valid)
    (hlta : a.start < a.stop) (hltb : b.start < b.stop) (h : a.Nested b)
    (hva' : (a.afterSplice target source).valid)
    (hvb' : (b.afterSplice target source).valid) :
    (a.afterSplice target source).Nested (b.afterSplice target source) := by
  have hin := ha.within
  rcases ea : a.afterSplice target source with ⟨starta, stopa, va⟩
  rcases eb : b.afterSplice target source with ⟨startb, stopb, vb⟩
  rw [ea] at hva'
  rw [eb] at hvb'
  subst hva' hvb'
  have casesa := ha.survivor_cases hmema hva hlta ea
  have casesb := ha.survivor_cases hmemb hvb hltb eb
  clear ha hmema hmemb ea eb
  simp only [Span.Nested, Span.Around, Span.Beside, Span.inner, size] at *
  rcases casesa with h1 | h1 | h1 | h1 <;> rcases casesb with h2 | h2 | h2 | h2 <;> omega

/-- What an aligned splice makes of a valid span of a truthful set. -/
theorem Truthful.followed {before lead new trail after : Text}
    (h : spans.Truthful opening closing (before ++ (lead ++ (new ++ (trail ++ after)))))
    (ha : spans.Aligned (before ++ (lead ++ (new ++ (trail ++ after)))) target source)
    (hbefore : before.byteSize = target.start) (hlead : target.start + lead.byteSize = source.start)
    (hnew : source.start + new.byteSize = source.stop)
    (htrail : source.stop + trail.byteSize = target.stop) {span : Span} (hmem : span ∈ spans)
    (hv : span.valid) :
    span.Followed (before ++ (lead ++ (new ++ (trail ++ after)))) (before ++ (new ++ after))
      target source (span.afterSplice target source) := by
  have hlt := h.start_lt_stop hmem hv
  obtain ⟨body, hbody⟩ := h.delimited span hmem hv
  have hin := ha.within
  have hcarried := ha.carried span hmem hv
  have hcontains {extent : Extent} {n : Nat} : extent.contains n = false ↔
      ¬(extent.start ≤ n ∧ n < extent.stop) := by
    rw [← contains_iff, Bool.not_eq_true]
  rcases Span.afterSplice_cases hin hv hlt (ha.clear span hmem hv) hcarried with
    ⟨h1, e⟩ | ⟨h1, e⟩ | ⟨h1, h1', e⟩ | ⟨h1, h1', hc, e⟩ | ⟨h1, e⟩
  · rw [e]
    refine ⟨?_, fun _ => slice?_before_target hbefore hlead hnew htrail h1, fun hr => ?_⟩
    · simp only [hv, hcontains, contains_iff]
      simp
      omega
    · simp only [Span.Around, Span.inner] at hr
      omega
  · rw [e]
    refine ⟨?_, fun _ => slice?_after_target hbefore hlead hnew htrail (Nat.le_of_lt hlt) h1,
      fun hr => ?_⟩
    · simp only [hcontains, contains_iff]
      simp
      omega
    · simp only [Span.Around, Span.inner] at hr
      omega
  · rw [e]
    refine ⟨?_, fun _ => slice?_in_source hbefore hlead hnew htrail (Nat.le_of_lt hlt) h1 h1',
      fun hr => ?_⟩
    · simp only [hcontains, contains_iff]
      simp
      omega
    · simp only [Span.Around, Span.inner] at hr
      omega
  · refine ⟨?_, fun hk => ?_, fun hr => ?_⟩
    · simp only [e, hc, contains_iff]
      simp
      omega
    · rw [hcontains] at hc
      simp only [Span.Beside, Span.Within] at hk
      omega
    · simp only [Span.Around, Span.inner] at hr
      omega
  · obtain ⟨front, back, hm, -, -, hfront, hslice⟩ :=
      slice?_around_target hbefore hlead hnew htrail h1 hbody
    have h1' := h1
    simp only [Span.Around, Span.inner] at h1'
    rw [e]
    refine ⟨?_, fun hk => ?_, fun _ => ⟨front, lead ++ (new ++ trail), new, back, ?_, ?_, hfront,
      by rw [hbody, hm], hslice⟩⟩
    · simp only [hcontains, contains_iff]
      simp
      omega
    · simp only [Span.Beside, Span.Within] at hk
      omega
    · exact slice?_eq_some_iff.2 ⟨before, after, by simp, hbefore, by
        simp only [byteSize_append]; omega⟩
    · exact slice?_eq_some_iff.2 ⟨before ++ lead, trail ++ after, by simp, by
        simp only [byteSize_append]; omega, by simp only [byteSize_append]; omega⟩

/-- A text in delimiters keeps them when a part between them is replaced. -/
theorem exists_delimited_of_append {body front old back : Text}
    (h : opening :: (body ++ [closing]) = front ++ (old ++ back)) (hfront : front ≠ [])
    (hback : back ≠ []) (new : Text) :
    ∃ body' : Text, front ++ (new ++ back) = opening :: (body' ++ [closing]) := by
  obtain ⟨c, front, rfl⟩ := exists_cons_of_ne_nil hfront
  obtain ⟨rfl, hrest⟩ := List.cons.inj h
  rcases eq_nil_or_concat back with rfl | ⟨back, d, rfl⟩
  · exact absurd rfl hback
  · have hrest' : body ++ [closing] = (front ++ (old ++ back)) ++ [d] := by
      rw [hrest]
      simp
    obtain ⟨-, hd⟩ := append_inj' hrest' rfl
    obtain rfl := singleton_inj.1 hd
    exact ⟨front ++ (new ++ back), by simp⟩

/-- A valid span that an aligned splice leaves still runs from delimiter to delimiter. -/
theorem Truthful.delimited_afterSplice {t' : Text} (h : spans.Truthful opening closing t)
    (ha : spans.Aligned t target source) {span : Span} (hmem : span ∈ spans)
    (hv : span.valid) (hv' : (span.afterSplice target source).valid)
    (hf : span.Followed t t' target source (span.afterSplice target source)) :
    ∃ body : Text, t'.slice? (span.afterSplice target source).start
      (span.afterSplice target source).stop = some (opening :: (body ++ [closing])) := by
  have hlt := h.start_lt_stop hmem hv
  obtain ⟨body, hbody⟩ := h.delimited span hmem hv
  rcases ha.clear span hmem hv with hb | hw | hr
  · exact ⟨body, by rw [hf.kept (.inl hb), hbody]⟩
  · -- a span in the target is left only if it starts in the source
    have hin : source.contains span.start := by
      by_contra hc
      have hgone := hf.gone_iff.2 ⟨contains_iff.2 ⟨hw.1, by have := hw.2; omega⟩,
        Bool.not_eq_true _ ▸ hc⟩
      rw [hv'] at hgone
      contradiction
    have hsource := ha.carried span hmem hv hin
    exact ⟨body, by rw [hf.kept (.inr ⟨(contains_iff.1 hin).1, hsource⟩), hbody]⟩
  · -- both delimiters stand outside the target, so the splice does not touch them
    obtain ⟨front, old, new, back, htarget, -, hfront, hold, hnew⟩ := hf.replaced hr
    simp only [Span.Around, Span.inner] at hr
    have hsize := add_byteSize_of_slice? hold
    have hsize' := add_byteSize_of_slice? htarget
    simp only [byteSize_append] at hsize
    rw [hbody, Option.some.injEq] at hold
    obtain ⟨body', hbody'⟩ := exists_delimited_of_append hold
      (by rintro rfl; rw [byteSize_nil] at hfront; omega)
      (by rintro rfl; rw [byteSize_nil] at hsize; omega) new
    exact ⟨body', by rw [hnew, hbody']⟩

/-- An aligned splice succeeds and keeps a truthful span set truthful. -/
theorem Truthful.splice (h : spans.Truthful opening closing t)
    (ha : spans.Aligned t target source) : ∃ t' spans',
      spans.splice t target source = .ok (t', spans') ∧
      SpanSet.Spliced opening closing t spans target source t' spans' := by
  obtain ⟨before, lead, new, trail, after, rfl, hbefore, hlead, hnew, htrail⟩ := ha.exists_parts
  have followed {span : Span} (hmem : span ∈ spans) (hv : span.valid) :=
    h.followed ha hbefore hlead hnew htrail hmem hv
  have hsource : (before ++ (lead ++ (new ++ (trail ++ after)))).slice? source.start source.stop =
      some new :=
    slice?_eq_some_iff.2 ⟨before ++ lead, trail ++ after, by simp, by
      rw [byteSize_append]; omega, by rw [byteSize_append]; omega⟩
  refine ⟨before ++ (new ++ after), spans.map (Span.afterSplice target source), ?_, ?_, ?_, ?_, ?_⟩
  · have hto : (before ++ (lead ++ (new ++ (trail ++ after)))).sliceTo target.start = .ok before :=
      sliceTo_append hbefore
    have hfrom : (before ++ (lead ++ (new ++ trail)) ++ after).sliceFrom target.stop = .ok after :=
      sliceFrom_append (by simp only [byteSize_append]; omega)
    simp only [append_assoc] at hfrom
    simp only [SpanSet.splice, slice_eq_ok_iff.2 hsource, hto, hfrom]
    simp [bind, Except.bind, pure, Except.pure]
  · exact ⟨before, lead ++ (new ++ trail), new, after, by simp, hbefore, by
      simp only [byteSize_append]; omega, hsource, rfl⟩
  · refine ⟨?_, ?_⟩
    · intro span' hmem' hv'
      obtain ⟨span, hmem, rfl⟩ := mem_map.1 hmem'
      have hv := Span.valid_of_afterSplice hv'
      exact h.delimited_afterSplice ha hmem hv hv' (followed hmem hv)
    · refine pairwise_map.2 (h.nested.imp_of_mem fun {a b} hmema hmemb hab hva' hvb' => ?_)
      have hva := Span.valid_of_afterSplice hva'
      have hvb := Span.valid_of_afterSplice hvb'
      exact ha.nested_afterSplice hmema hmemb hva hvb (h.start_lt_stop hmema hva)
        (h.start_lt_stop hmemb hvb) (hab hva hvb) hva' hvb'
  · exact length_map ..
  · intro i span span' hspan hspan'
    rw [getElem?_map, hspan, Option.map_some, Option.some.injEq] at hspan'
    subst hspan'
    refine ⟨fun hv => by simp [Span.afterSplice, hv], fun hv => ?_⟩
    exact followed (mem_of_getElem? hspan) hv

/-! ## Any number of splices -/

/-- The texts and span sets that aligned splices lead to, from the spans found in `text`. -/
inductive Rewritten (opening closing : Char) (text : Text) : Text → SpanSet → Prop where
  | start : Rewritten opening closing text text (find opening closing text)
  | step {t t' : Text} {spans spans' : SpanSet} {target source : Extent} :
    Rewritten opening closing text t spans → spans.Aligned t target source →
    spans.splice t target source = .ok (t', spans') → Rewritten opening closing text t' spans'

theorem Rewritten.truthful {text : Text}
    (h : Rewritten opening closing text t spans) : spans.Truthful opening closing t := by
  induction h with
  | start => exact truthful_find opening closing text
  | step _ ha hsplice ih =>
    obtain ⟨t', spans', hok, hspliced⟩ := ih.splice ha
    rw [hsplice, Except.ok.injEq, Prod.mk.injEq] at hok
    obtain ⟨rfl, rfl⟩ := hok
    exact hspliced.truthful

/-- Through any sequence of aligned splices a span set stays truthful, and each splice does to text
and spans what it should. -/
theorem truthful_of_rewritten {opening closing : Char} {text t : Text} {spans : SpanSet}
    (h : Rewritten opening closing text t spans) : spans.Truthful opening closing t ∧
      ∀ target source : Extent, spans.Aligned t target source → ∃ t' spans',
        spans.splice t target source = .ok (t', spans') ∧
        SpanSet.Spliced opening closing t spans target source t' spans' :=
  ⟨h.truthful, fun _ _ ha => h.truthful.splice ha⟩

/-- `(t)?((x)) (y)` becomes `(x) (y)`, and then `(x)` can be deleted. -/
theorem truthful_after_choice :
    SpanSet.Truthful '(' ')' "(x) (y)".toList
      [⟨0, 3, false⟩, ⟨0, 3, true⟩, ⟨4, 9, false⟩, ⟨4, 7, true⟩] ∧
    ∃ t' spans', SpanSet.splice [⟨0, 3, false⟩, ⟨0, 3, true⟩, ⟨4, 9, false⟩, ⟨4, 7, true⟩]
        "(x) (y)".toList ⟨0, 3⟩ ⟨0, 0⟩ = .ok (t', spans') ∧
      SpanSet.Spliced '(' ')' "(x) (y)".toList
        [⟨0, 3, false⟩, ⟨0, 3, true⟩, ⟨4, 9, false⟩, ⟨4, 7, true⟩] ⟨0, 3⟩ ⟨0, 0⟩ t' spans' := by
  have aligned : SpanSet.Aligned "(t)?((x)) (y)".toList
      (find '(' ')' "(t)?((x)) (y)".toList) ⟨0, 9⟩ ⟨5, 8⟩ :=
    ⟨by decide, by decide, by decide, by decide⟩
  have reached := truthful_of_rewritten (.step .start aligned rfl)
  exact ⟨reached.1, reached.2 ⟨0, 3⟩ ⟨0, 0⟩ ⟨by decide, by decide, by decide, by decide⟩⟩

end SpanSet

end SqlScript
