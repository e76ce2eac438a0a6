import SqlScript.Proofs.Joined

/-!
# What is left of a text when its branches are resolved

Resolving a branch deletes parts of the text and adds none. So the state of a run can be told by the
offsets of the original text that are still there : the text is what is left of the original
(`Text.kept`), and a span stands where the number of bytes that are left before it says
(`Text.rank`). The splice of a branch takes the region away apart from the part that is chosen
(`carve`), and with it the text and all the spans follow (`SpanSet.splice_kept`,
`Span.Shown.afterSplice`).

Hence a run of the branches, which moves the spans at every step, is a run over sets of offsets in
which every branch stays at its original place (`Fork.mask`, `Branch.resolve_eq_kept`).
-/

namespace SqlScript

open List Option Text Extent SpanSet Branch

/-! ## Texts of which a part is left -/

namespace Text

/-- What is left of a text that starts at the given offset, when the offsets that `keep` says are
kept. -/
def kept (keep : Nat → Bool) : Nat → Text → Text
  | _, [] => []
  | n, c :: t =>
    if keep n then c :: kept keep (n + c.utf8Size) t else kept keep (n + c.utf8Size) t

/-- The number of bytes that are left before an offset of the text. -/
def rank (keep : Nat → Bool) (t : Text) (m : Nat) : Nat :=
  byteSize (kept (fun k => keep k && decide (k < m)) 0 t)

/-- The place of an extent in what is left of the text. -/
def rankExtent (keep : Nat → Bool) (t : Text) (extent : Extent) : Extent :=
  ⟨rank keep t extent.start, rank keep t extent.stop⟩

/-- What is left of the text of an extent. -/
def keptIn (keep : Nat → Bool) (extent : Extent) (t : Text) : Text :=
  kept (fun k => keep k && extent.contains k) 0 t

section Kept

variable {keep keep' : Nat → Bool} {t m : Text} {n lo hi : Nat}

theorem kept_append (keep : Nat → Bool) (n : Nat) (a b : Text) :
    kept keep n (a ++ b) = kept keep n a ++ kept keep (n + a.byteSize) b := by
  induction a generalizing n with
  | nil => rfl
  | cons c a ih =>
    simp only [cons_append, kept, ih, byteSize_cons, Nat.add_assoc]
    split <;> simp

theorem kept_congr (h : ∀ k, n ≤ k → k < n + t.byteSize → keep k = keep' k) :
    kept keep n t = kept keep' n t := by
  induction t generalizing n with
  | nil => rfl
  | cons c t ih =>
    have hpos := c.utf8Size_pos
    rw [byteSize_cons] at h
    have hrest := ih (n := n + c.utf8Size) fun k hk hk' => h k (by omega) (by omega)
    rw [kept, kept, h n (Nat.le_refl n) (by omega), hrest]

theorem kept_of_forall (h : ∀ k, n ≤ k → k < n + t.byteSize → keep k) : kept keep n t = t := by
  induction t generalizing n with
  | nil => rfl
  | cons c t ih =>
    have hpos := c.utf8Size_pos
    rw [byteSize_cons] at h
    have hrest := ih (n := n + c.utf8Size) fun k hk hk' => h k (by omega) (by omega)
    rw [kept, h n (Nat.le_refl n) (by omega), if_pos rfl, hrest]

theorem kept_eq_nil (h : ∀ k, n ≤ k → k < n + t.byteSize → keep k = false) :
    kept keep n t = [] := by
  induction t generalizing n with
  | nil => rfl
  | cons c t ih =>
    have hpos := c.utf8Size_pos
    rw [byteSize_cons] at h
    have hrest := ih (n := n + c.utf8Size) fun k hk hk' => h k (by omega) (by omega)
    rw [kept, h n (Nat.le_refl n) (by omega), if_neg (by decide), hrest]

/-- What is left of a text is the same wherever the text starts. -/
theorem kept_shift (keep : Nat → Bool) (n d : Nat) (t : Text) :
    kept keep (n + d) t = kept (fun k => keep (k + d)) n t := by
  induction t generalizing n with
  | nil => rfl
  | cons c t ih =>
    simp only [kept]
    rw [show n + d + c.utf8Size = n + c.utf8Size + d by omega, ih]

theorem rank_append (keep : Nat → Bool) (a b : Text) :
    rank keep (a ++ b) a.byteSize = byteSize (kept keep 0 a) := by
  rw [rank, kept_append, Nat.zero_add, kept_eq_nil (t := b) (by simp; omega), append_nil]
  congr 1
  refine kept_congr fun k _ hk => ?_
  simp [show k < a.byteSize by omega]

/-- A slice of the text is still a slice of what is left. -/
theorem slice?_kept (h : t.slice? lo hi = some m) :
    (kept keep 0 t).slice? (rank keep t lo) (rank keep t hi) = some (kept keep lo m) := by
  obtain ⟨a, b, rfl, rfl, rfl⟩ := slice?_eq_some_iff.1 h
  have hhi := rank_append keep (a ++ m) b
  rw [byteSize_append, append_assoc, kept_append, byteSize_append] at hhi
  rw [hhi, rank_append]
  refine slice?_eq_some_iff.2 ⟨kept keep 0 a, kept keep (a.byteSize + m.byteSize) b, ?_, rfl, ?_⟩
  · rw [kept_append, kept_append, Nat.zero_add]
  · rw [Nat.zero_add]

theorem keptIn_of_slice? (h : t.slice? lo hi = some m) :
    keptIn keep ⟨lo, hi⟩ t = kept keep lo m := by
  obtain ⟨a, b, rfl, rfl, rfl⟩ := slice?_eq_some_iff.1 h
  have hbefore : kept (fun k => keep k && Extent.contains ⟨a.byteSize, a.byteSize + m.byteSize⟩ k)
      0 a = [] :=
    kept_eq_nil fun k _ hk => by simp [Extent.contains]; omega
  have hafter : kept (fun k => keep k && Extent.contains ⟨a.byteSize, a.byteSize + m.byteSize⟩ k)
      (a.byteSize + m.byteSize) b = [] :=
    kept_eq_nil fun k hk _ => by simp [Extent.contains]; omega
  rw [keptIn, kept_append, kept_append, hbefore, Nat.zero_add, hafter, append_nil, nil_append]
  refine kept_congr fun k hk hk' => ?_
  simp [Extent.contains, hk, hk']

/-- Between two offsets where the same is kept, the same number of bytes is left. -/
theorem rank_add_rank (keep keep' : Nat → Bool) (t : Text) (hle : lo ≤ hi)
    (h : ∀ k, lo ≤ k → k < hi → keep k = keep' k) :
    rank keep t hi + rank keep' t lo = rank keep' t hi + rank keep t lo := by
  unfold rank
  generalize 0 = n
  induction t generalizing n with
  | nil => rfl
  | cons c t ih =>
    have hrest := ih (n + c.utf8Size)
    by_cases hlo : n < lo
    · have hhi : n < hi := by omega
      simp only [kept, hlo, hhi, decide_true, Bool.and_true]
      cases keep n <;> cases keep' n <;>
        simp only [Bool.false_eq_true, if_true, if_false, byteSize_cons] <;> omega
    · by_cases hhi : n < hi
      · simp only [kept, hlo, hhi, h n (by omega) hhi, decide_true, decide_false, Bool.and_true,
          Bool.and_false, Bool.false_eq_true, if_false]
        cases keep' n <;> simp only [Bool.false_eq_true, if_true, if_false, byteSize_cons] <;> omega
      · simpa only [kept, hlo, hhi, decide_false, Bool.and_false, Bool.false_eq_true, if_false]
          using hrest

theorem rank_false (t : Text) (m : Nat) : rank (fun _ => false) t m = 0 := by
  rw [rank, kept_eq_nil fun _ _ _ => by simp, byteSize_nil]

theorem rank_zero (keep : Nat → Bool) (t : Text) : rank keep t 0 = 0 := by
  rw [rank, kept_eq_nil fun _ _ _ => by simp, byteSize_nil]

theorem rank_eq_rank (hle : lo ≤ hi) (h : ∀ k, lo ≤ k → k < hi → keep k = false) :
    rank keep t hi = rank keep t lo := by
  have hsum := rank_add_rank keep (fun _ => false) t hle h
  rw [rank_false, rank_false] at hsum
  omega

theorem rank_mono (keep : Nat → Bool) (t : Text) (hle : lo ≤ hi) :
    rank keep t lo ≤ rank keep t hi := by
  -- compared with what is kept from `lo` on only
  have hsum := rank_add_rank keep (fun k => keep k && decide (lo ≤ k)) t hle
    fun k hk _ => by simp [hk]
  have hzero : rank (fun k => keep k && decide (lo ≤ k)) t lo = 0 := by
    rw [rank, kept_eq_nil fun k _ _ => by simp, byteSize_nil]
  omega

/-- A character of one byte that is kept makes a step of one byte. -/
theorem rank_succ {a b : Text} {c : Char} (hc : c.utf8Size = 1) (hkeep : keep a.byteSize) :
    rank keep (a ++ c :: b) (a.byteSize + 1) = rank keep (a ++ c :: b) a.byteSize + 1 := by
  have hnext := rank_append keep (a ++ [c]) b
  rw [append_assoc, singleton_append, byteSize_append, kept_append, byteSize_append]
    at hnext
  rw [rank_append, ← hc, show a.byteSize + c.utf8Size = a.byteSize + byteSize [c] by simp, hnext,
    Nat.zero_add]
  simp [kept, hkeep]

end Kept

end Text

/-! ## Splices -/

theorem Extent.contains_eq_false_iff {extent : Extent} {n : Nat} :
    extent.contains n = false ↔ n < extent.start ∨ extent.stop ≤ n := by
  rw [← Bool.not_eq_true, contains_iff]
  omega

/-- The offsets that are kept when, of the target, only the source is left. -/
def carve (keep : Nat → Bool) (target source : Extent) (n : Nat) : Bool :=
  keep n && (!target.contains n || source.contains n)

theorem keep_of_carve {keep : Nat → Bool} {target source : Extent} {n : Nat}
    (h : carve keep target source n) : keep n := by
  rw [carve, Bool.and_eq_true] at h
  exact h.1

section Carve

variable {keep : Nat → Bool} {t : Text} {target source : Extent} {n : Nat}

theorem carve_of_outside (h : target.contains n = false) : carve keep target source n = keep n := by
  simp [carve, h]

theorem carve_of_inside (h : source.contains n) : carve keep target source n = keep n := by
  simp [carve, h]

theorem carve_eq_false (h : target.contains n) (h' : source.contains n = false) :
    carve keep target source n = false := by
  simp [carve, h, h']

/-- The source lies in the target. -/
def Extent.Covers (target source : Extent) : Prop :=
  target.start ≤ source.start ∧ source.start ≤ source.stop ∧ source.stop ≤ target.stop

theorem Extent.Covers.rankExtent (h : target.Covers source) (t : Text) (keep : Nat → Bool) :
    (t.rankExtent keep target).Covers (t.rankExtent keep source) :=
  ⟨rank_mono keep t h.1, rank_mono keep t h.2.1, rank_mono keep t h.2.2⟩

theorem rank_carve_before (h : n ≤ target.start) :
    rank (carve keep target source) t n = rank keep t n := by
  have hsum := rank_add_rank (carve keep target source) keep t
    (Nat.zero_le n) fun k _ hk => carve_of_outside (contains_eq_false_iff.2 (by omega))
  rw [rank_zero, rank_zero] at hsum
  exact hsum

theorem rank_carve_source (keep : Nat → Bool) (t : Text) (hcovers : target.Covers source)
    (h : source.start ≤ n) (h' : n ≤ source.stop) :
    rank (carve keep target source) t n + rank keep t source.start =
      rank keep t n + rank keep t target.start := by
  obtain ⟨hlead, -, htrail⟩ := hcovers
  have hgone : rank (carve keep target source) t source.start =
      rank (carve keep target source) t target.start :=
    rank_eq_rank hlead fun k hk hk' =>
      carve_eq_false (contains_iff.2 (by omega)) (contains_eq_false_iff.2 (by omega))
  have hsum := rank_add_rank (carve keep target source) keep t h
    fun k hk hk' => carve_of_inside (contains_iff.2 (by omega))
  rw [hgone, rank_carve_before (Nat.le_refl _)] at hsum
  exact hsum

theorem rank_carve_after (keep : Nat → Bool) (t : Text) (hcovers : target.Covers source)
    (h : target.stop ≤ n) : rank (carve keep target source) t n + rank keep t target.stop +
        rank keep t source.start =
      rank keep t n + rank keep t source.stop + rank keep t target.start := by
  have hsource := rank_carve_source keep t hcovers hcovers.2.1 (Nat.le_refl _)
  obtain ⟨hlead, hle, htrail⟩ := hcovers
  have hgone : rank (carve keep target source) t target.stop =
      rank (carve keep target source) t source.stop :=
    rank_eq_rank htrail fun k hk hk' =>
      carve_eq_false (contains_iff.2 (by omega)) (contains_eq_false_iff.2 (by omega))
  have hsum := rank_add_rank (carve keep target source) keep t h
    fun k hk _ => carve_of_outside (contains_eq_false_iff.2 (by omega))
  omega

/-- What is left of the parts of a text when, of the target, only the source is left. -/
theorem kept_carve {before lead new trail after : Text} (hbefore : before.byteSize = target.start)
    (hlead : target.start + lead.byteSize = source.start)
    (hnew : source.start + new.byteSize = source.stop)
    (htrail : source.stop + trail.byteSize = target.stop) :
    kept (carve keep target source) 0 (before ++ (lead ++ (new ++ (trail ++ after)))) =
      kept keep 0 before ++ (kept keep source.start new ++
        kept keep target.stop after) := by
  simp only [kept_append, Nat.zero_add, hbefore, hlead, hnew, htrail]
  have hbefore' : kept (carve keep target source) 0 before = kept keep 0 before :=
    kept_congr fun k _ hk => carve_of_outside (contains_eq_false_iff.2 (by omega))
  have hlead' : kept (carve keep target source) target.start lead = [] :=
    kept_eq_nil fun k hk hk' =>
      carve_eq_false (contains_iff.2 (by omega)) (contains_eq_false_iff.2 (by omega))
  have hnew' : kept (carve keep target source) source.start new =
      kept keep source.start new :=
    kept_congr fun k hk hk' => carve_of_inside (contains_iff.2 (by omega))
  have htrail' : kept (carve keep target source) source.stop trail = [] :=
    kept_eq_nil fun k hk hk' =>
      carve_eq_false (contains_iff.2 (by omega)) (contains_eq_false_iff.2 (by omega))
  have hafter' : kept (carve keep target source) target.stop after =
      kept keep target.stop after :=
    kept_congr fun k hk _ => carve_of_outside (contains_eq_false_iff.2 (by omega))
  rw [hbefore', hlead', hnew', htrail', hafter', nil_append, nil_append]

/-- A splice in what is left of a text. -/
theorem SpanSet.splice_kept (h : (braces t).Aligned t target source) (spans : SpanSet) :
    spans.splice (kept keep 0 t) (rankExtent keep t target)
        (rankExtent keep t source) =
      .ok (kept (carve keep target source) 0 t,
        spans.map (Span.afterSplice (rankExtent keep t target)
          (rankExtent keep t source))) := by
  obtain ⟨before, lead, new, trail, after, htext, hbefore, hlead, hnew, htrail⟩ := h.exists_parts
  have hsizes : kept keep 0 t = kept keep 0 before ++ (kept keep target.start lead ++
      (kept keep source.start new ++ (kept keep source.stop trail ++
        kept keep target.stop after))) := by
    simp only [htext, kept_append, Nat.zero_add, hbefore, hlead, hnew, htrail]
  have hslice : ∀ {lo hi : Nat} {m : Text}, t.slice? lo hi = some m →
      rank keep t lo + (kept keep lo m).byteSize = rank keep t hi := fun hm =>
    add_byteSize_of_slice? (slice?_kept hm)
  have hfirst : (kept keep 0 before).byteSize = rank keep t target.start := by
    rw [htext, ← hbefore, rank_append]
  rw [hsizes, splice_append spans (by rw [hfirst]; rfl), htext,
    kept_carve hbefore hlead hnew htrail]
  · refine hslice (slice?_eq_some_iff.2 ⟨before, _, htext, hbefore, by omega⟩)
  · refine hslice (slice?_eq_some_iff.2 ⟨before ++ lead, trail ++ after, ?_, ?_, ?_⟩)
    · simp [htext]
    · rw [byteSize_append]; omega
    · rw [byteSize_append]; omega
  · refine hslice (slice?_eq_some_iff.2 ⟨before ++ (lead ++ new), after, ?_, ?_, ?_⟩)
    · simp [htext]
    · simp only [byteSize_append]; omega
    · simp only [byteSize_append]; omega

end Carve

/-! ## Spans in what is left -/

/-- The second span is the first one in what is left of the text. -/
structure Span.Shown (t : Text) (keep : Nat → Bool) (span span' : Span) : Prop where
  valid : span'.valid = keep span.start
  places : keep span.start = true →
    span'.start = rank keep t span.start ∧ span'.stop = rank keep t span.stop

/-- The place of a span in what is left of the text. -/
def Span.ranked (t : Text) (keep : Nat → Bool) (span : Span) : Span :=
  ⟨rank keep t span.start, rank keep t span.stop, true⟩

/-- A span of which the opening brace is kept has its closing brace as well. -/
def KeepsPairs (t : Text) (keep : Nat → Bool) : Prop :=
  ∀ span ∈ braces t, keep span.start = true → keep (span.stop - 1) = true

section Shown

variable {t : Text} {keep : Nat → Bool} {span span' : Span} {target source : Extent}

/-- The braces of a span that is kept are one byte each in what is left. -/
theorem rank_braces (hmem : span ∈ braces t) (hkeep : keep span.start)
    (hpairs : KeepsPairs t keep) :
    rank keep t (span.start + 1) = rank keep t span.start + 1 ∧
      rank keep t span.stop = rank keep t (span.stop - 1) + 1 := by
  have hclosing := hpairs span hmem hkeep
  obtain ⟨-, body, hbody⟩ := exists_braces hmem
  obtain ⟨a, b, rfl, hstart, hstop⟩ := slice?_eq_some_iff.1 hbody
  constructor
  · rw [← hstart] at hkeep ⊢
    exact rank_succ rfl hkeep
  · have hsize : (a ++ '\x7b' :: body).byteSize = span.stop - 1 := by
      rw [← hstop]
      simp [show '\x7d'.utf8Size = 1 from rfl]
      omega
    have hlast : span.stop = (a ++ '\x7b' :: body).byteSize + 1 := by
      rw [← hstop]
      simp [show '\x7d'.utf8Size = 1 from rfl]
      omega
    have htext : a ++ ('\x7b' :: (body ++ ['\x7d']) ++ b) = a ++ '\x7b' :: body ++ '\x7d' :: b := by
      simp
    rw [← hsize] at hclosing ⊢
    rw [hlast, htext]
    exact rank_succ rfl hclosing

theorem Span.Shown.eq_ranked (h : span.Shown t keep span') (hkeep : keep span.start) :
    span' = span.ranked t keep := by
  obtain ⟨start, stop, valid⟩ := span'
  obtain ⟨rfl, rfl⟩ := h.places hkeep
  obtain rfl : valid := h.valid.trans hkeep
  rfl

theorem Span.Shown.inner (h : span.Shown t keep span') (hmem : span ∈ braces t)
    (hkeep : keep span.start) (hpairs : KeepsPairs t keep) :
    span'.inner = rankExtent keep t span.inner := by
  obtain ⟨hstart, hstop⟩ := h.places hkeep
  obtain ⟨hopening, hclosing⟩ := rank_braces hmem hkeep hpairs
  simp only [Span.inner, rankExtent, hstart, hstop, hopening, hclosing, Nat.add_sub_cancel]

/-- A splice keeps both braces of a span or none. -/
theorem KeepsPairs.carve (h : KeepsPairs t keep)
    (haligned : (braces t).Aligned t target source) : KeepsPairs t (carve keep target source) := by
  intro span hmem hkeep
  have hclosing := h span hmem (keep_of_carve hkeep)
  have hvalid := (exists_braces hmem).1
  have hlt := start_lt_stop hmem
  have hclear := haligned.clear span hmem hvalid
  have hcarried := haligned.carried span hmem hvalid
  simp only [SqlScript.carve, hclosing, keep_of_carve hkeep, Bool.true_and, Bool.or_eq_true,
    Bool.not_eq_true', Bool.eq_false_iff, ne_eq, contains_iff] at hkeep hcarried ⊢
  simp only [Span.Beside, Span.Within, Span.Around, Span.inner] at hclear
  omega

/-- A span that is kept is ordered with every offset as it was. -/
theorem rank_lt_rank_iff (hmem : span ∈ braces t) (hkeep : keep span.start)
    (hpairs : KeepsPairs t keep) (n : Nat) :
    (rank keep t span.start < rank keep t n ↔ span.start < n) ∧
      (rank keep t n < rank keep t span.stop ↔ n < span.stop) := by
  obtain ⟨hopening, hclosing⟩ := rank_braces hmem hkeep hpairs
  have hmono : ∀ {a b : Nat}, a ≤ b → rank keep t a ≤ rank keep t b :=
    rank_mono keep t
  refine ⟨⟨fun h => ?_, fun h => ?_⟩, ⟨fun h => ?_, fun h => ?_⟩⟩
  · by_contra hle
    exact absurd (hmono (Nat.le_of_not_lt hle)) (Nat.not_le.2 h)
  · have hle := hmono (show span.start + 1 ≤ n from h)
    omega
  · by_contra hle
    exact absurd (hmono (Nat.le_of_not_lt hle)) (Nat.not_le.2 h)
  · have hle := hmono (show n ≤ span.stop - 1 by omega)
    omega

/-- An aligned splice, in what is left, is clear of the span as well. -/
theorem Span.ranked_clear (hmem : span ∈ braces t) (hkeep : keep span.start)
    (hpairs : KeepsPairs t keep) (haligned : (braces t).Aligned t target source) :
    (span.ranked t keep).Beside (t.rankExtent keep target) ∨
      (span.ranked t keep).Within (t.rankExtent keep target) ∨
      (span.ranked t keep).Around (t.rankExtent keep target) := by
  have hstart := rank_lt_rank_iff hmem hkeep hpairs target.start
  have hstop := rank_lt_rank_iff hmem hkeep hpairs target.stop
  have hclear := haligned.clear span hmem (exists_braces hmem).1
  simp only [Span.Beside, Span.Within, Span.Around, Span.inner, Span.ranked, rankExtent]
    at hclear ⊢
  omega

theorem Span.ranked_carried (hmem : span ∈ braces t) (hkeep : keep span.start)
    (hpairs : KeepsPairs t keep) (haligned : (braces t).Aligned t target source) :
    (t.rankExtent keep source).contains (span.ranked t keep).start →
      (span.ranked t keep).stop ≤ (t.rankExtent keep source).stop := by
  have hstart := rank_lt_rank_iff hmem hkeep hpairs source.start
  have hstop := rank_lt_rank_iff hmem hkeep hpairs source.stop
  have hcarried := haligned.carried span hmem (exists_braces hmem).1
  simp only [contains_iff, Span.ranked, rankExtent] at hcarried ⊢
  omega

/-- A splice in what is left moves a span to its place in what is left afterwards. -/
theorem Span.Shown.afterSplice (h : span.Shown t keep span') (hmem : span ∈ braces t)
    (hpairs : KeepsPairs t keep) (haligned : (braces t).Aligned t target source) :
    span.Shown t (carve keep target source)
      (span'.afterSplice (rankExtent keep t target) (rankExtent keep t source)) := by
  cases hkeep : keep span.start with
  | false =>
    have hgone : SqlScript.carve keep target source span.start = false := by
      simp [SqlScript.carve, hkeep]
    have hvalid : span'.valid = false := h.valid.trans hkeep
    exact ⟨by simp [Span.afterSplice, hvalid, hgone], by simp [hgone]⟩
  | true =>
    obtain rfl := h.eq_ranked hkeep
    have hlt := start_lt_stop hmem
    have hcovers : target.Covers source := haligned.within
    have horder := rank_lt_rank_iff hmem hkeep hpairs
    have hin := hcovers.rankExtent t keep
    -- in what is left, the splice meets the span as it would at the original places
    rcases Span.afterSplice_cases hin rfl ((horder span.stop).1.2 hlt)
      (Span.ranked_clear hmem hkeep hpairs haligned)
      (Span.ranked_carried hmem hkeep hpairs haligned) with
      ⟨hbefore, hspan⟩ | ⟨hafter, hspan⟩ | ⟨hfrom, hto, hspan⟩ | ⟨hfrom, hto, hout, hspan⟩ |
        ⟨⟨hfrom, hto⟩, hspan⟩
    all_goals
      have htarget := horder target.start
      have htarget' := horder target.stop
      have hsource := horder source.start
      have hsource' := horder source.stop
      simp only [Span.ranked, Span.inner, rankExtent, Extent.size, Extent.Covers,
        contains_eq_false_iff] at *
    · have hkept : carve keep target source span.start := by
        rw [carve_of_outside (contains_eq_false_iff.2 (by omega)), hkeep]
      have hstart : rank (carve keep target source) t span.start = _ :=
        rank_carve_before (by omega)
      have hstop : rank (carve keep target source) t span.stop = _ :=
        rank_carve_before (by omega)
      rw [hspan]
      exact ⟨hkept.symm, fun _ => ⟨hstart.symm, hstop.symm⟩⟩
    · have hkept : carve keep target source span.start := by
        rw [carve_of_outside (contains_eq_false_iff.2 (by omega)), hkeep]
      have hstart := rank_carve_after keep t hcovers (n := span.start) (by omega)
      have hstop := rank_carve_after keep t hcovers (n := span.stop) (by omega)
      rw [hspan]
      exact ⟨hkept.symm, fun _ => ⟨by simp only; omega, by simp only; omega⟩⟩
    · have hkept : carve keep target source span.start := by
        rw [carve_of_inside (contains_iff.2 (by omega)), hkeep]
      have hstart := rank_carve_source keep t hcovers (n := span.start) (by omega) (by omega)
      have hstop := rank_carve_source keep t hcovers (n := span.stop) (by omega) (by omega)
      rw [hspan]
      exact ⟨hkept.symm, fun _ => ⟨by simp only; omega, by simp only; omega⟩⟩
    · have hgone : carve keep target source span.start = false :=
        carve_eq_false (contains_iff.2 (by omega))
          (contains_eq_false_iff.2 (by omega))
      exact ⟨hspan.trans hgone.symm, by simp [hgone]⟩
    · have hkept : carve keep target source span.start := by
        rw [carve_of_outside (contains_eq_false_iff.2 (by omega)), hkeep]
      have hstart : rank (carve keep target source) t span.start = _ :=
        rank_carve_before (by omega)
      have hstop := rank_carve_after keep t hcovers (n := span.stop) (by omega)
      rw [hspan]
      exact ⟨hkept.symm, fun _ => ⟨hstart.symm, by simp only; omega⟩⟩

end Shown

/-! ## Branches at their original places -/

/-- The parts of a branch, as spans of the original text. -/
structure Fork where
  condition : Span
  ifTrue : Span
  ifFalse : Option Span
deriving DecidableEq, Repr

namespace Fork

/-- The last span of the branch. -/
def last (fork : Fork) : Span :=
  fork.ifFalse.getD fork.ifTrue

/-- The bytes of the whole branch. -/
def region (fork : Fork) : Extent :=
  ⟨fork.condition.start, fork.last.stop⟩

/-- The part that is left of the branch, which the condition chooses by what is left of it. -/
def source (grammar : Grammar) (t : Text) (keep : Nat → Bool) (fork : Fork) : Extent :=
  if Condition.holds grammar (t.keptIn keep fork.condition.inner) then fork.ifTrue.inner
  else if fork.ifFalse.isSome then fork.last.inner
  else ⟨fork.region.start, fork.region.start⟩

/-- Whether all parts of the branch are left. -/
def isKept (keep : Nat → Bool) (fork : Fork) : Bool :=
  keep fork.condition.start && keep fork.ifTrue.start && keep fork.last.start

/-- The offsets that are kept when the branch is resolved. -/
def resolve (grammar : Grammar) (t : Text) (keep : Nat → Bool) (fork : Fork) : Nat → Bool :=
  if fork.isKept keep then carve keep fork.region (fork.source grammar t keep) else keep

/-- The offsets that are kept when the branches are resolved one after the other. -/
def mask (grammar : Grammar) (t : Text) (forks : List Fork) : Nat → Bool :=
  forks.foldl (resolve grammar t) fun _ => true

/-- The parts are spans of the text, a question mark separates the first two of them, and the last
one is the span that a colon separates from the second, if there is one. -/
structure Follows (t : Text) (fork : Fork) : Prop where
  condition : fork.condition ∈ braces t
  ifTrue : fork.ifTrue ∈ braces t
  separated : Separated t '?' fork.condition fork.ifTrue
  ifFalse : ∀ span, fork.ifFalse = some span ↔
    span ∈ braces t ∧ Separated t ':' fork.ifTrue span

section Places

variable {t : Text} {fork : Fork}

/-- The last part is the part that is taken if the condition holds, or follows behind it. -/
theorem Follows.last_cases (h : fork.Follows t) :
    (fork.ifFalse = none ∧ fork.last = fork.ifTrue) ∨
      (fork.ifFalse = some fork.last ∧ fork.last ∈ braces t ∧
        Separated t ':' fork.ifTrue fork.last) := by
  cases hifFalse : fork.ifFalse with
  | none => exact .inl ⟨rfl, by rw [last, hifFalse]; rfl⟩
  | some span =>
    have hlast : fork.last = span := by rw [last, hifFalse]; rfl
    rw [hlast]
    exact .inr ⟨rfl, (h.ifFalse span).1 hifFalse⟩

theorem Follows.last_mem (h : fork.Follows t) : fork.last ∈ braces t := by
  rcases h.last_cases with ⟨-, hlast⟩ | ⟨-, hlast, -⟩
  · exact hlast ▸ h.ifTrue
  · exact hlast

/-- The order of the parts. -/
theorem Follows.order (h : fork.Follows t) :
    fork.condition.start < fork.condition.stop ∧ fork.condition.stop ≤ fork.ifTrue.start ∧
      fork.ifTrue.start < fork.ifTrue.stop ∧ fork.condition.stop ≤ fork.last.start ∧
      fork.last.start < fork.last.stop ∧ fork.ifTrue.stop ≤ fork.last.stop := by
  have hle : fork.condition.stop ≤ fork.ifTrue.start := h.separated.le
  have hlt := start_lt_stop h.ifTrue
  have hlt' := start_lt_stop h.last_mem
  refine ⟨start_lt_stop h.condition, hle, hlt, ?_, hlt', ?_⟩ <;>
    rcases h.last_cases with ⟨-, hlast⟩ | ⟨-, -, hsep⟩
  · rwa [hlast]
  · have hle' : fork.ifTrue.stop ≤ fork.last.start := hsep.le
    omega
  · exact Nat.le_of_eq (by rw [hlast])
  · have hle' : fork.ifTrue.stop ≤ fork.last.start := hsep.le
    omega

/-- No span is cut through by the ends of a branch. -/
theorem Follows.clears (h : fork.Follows t) : (braces t).Clears fork.region := by
  have htruthful := truthful_find '\x7b' '\x7d' t
  have hvalid : ∀ {span : Span}, span ∈ braces t → span.valid :=
    fun hmem => (exists_braces hmem).1
  obtain ⟨hlt, hle, hlt', -⟩ := h.order
  have hfirst : (braces t).Clears ⟨fork.condition.start, fork.ifTrue.stop⟩ :=
    (htruthful.clears h.condition (hvalid h.condition)).join htruthful (Nat.le_of_lt hlt)
      (h.separated.joined isMark_question) h.ifTrue (hvalid h.ifTrue)
  rcases h.last_cases with ⟨-, hlast⟩ | ⟨-, hmem, hsep⟩
  · rw [region, hlast]
    exact hfirst
  · exact hfirst.join htruthful (by omega) (hsep.joined isMark_colon) hmem (hvalid hmem)

/-- Whatever is left of the condition, the part that is chosen can take the place of the branch. -/
theorem Follows.aligned (h : fork.Follows t) (grammar : Grammar) (keep : Nat → Bool) :
    (braces t).Aligned t fork.region (fork.source grammar t keep) := by
  have htruthful := truthful_find '\x7b' '\x7d' t
  obtain ⟨hlt, hle, hlt', hle', hlt'', hle''⟩ := h.order
  obtain ⟨-, body, hbody⟩ := exists_braces h.condition
  obtain ⟨-, body', hbody'⟩ := exists_braces h.last_mem
  have hstart : t.IsPlace fork.condition.start := (isPlace_of_slice? hbody).1
  have hstop : t.IsPlace fork.last.stop := (isPlace_of_slice? hbody').2
  unfold source
  split
  · exact aligned_inner htruthful h.clears hstart hstop h.ifTrue
      (exists_braces h.ifTrue).1 (by omega) hle''
  · split
    · exact aligned_inner htruthful h.clears hstart hstop h.last_mem
        (exists_braces h.last_mem).1 (by omega) (Nat.le_refl _)
    · exact aligned_delete h.clears hstart hstop (by omega)

end Places

end Fork

/-! ## Runs -/

namespace Branch

/-- The span with the index, of a set that has one. -/
def spanAt (spans : SpanSet) (index : Nat) : Span :=
  spans[index]?.getD ⟨0, 0, false⟩

/-- The branch with its spans in the place of their indices. -/
def fork (spans : SpanSet) (branch : Branch) : Fork :=
  ⟨spanAt spans branch.condition, spanAt spans branch.ifTrue, branch.ifFalse.map (spanAt spans)⟩

theorem spanAt_eq {spans : SpanSet} {i : Nat} {span : Span} (h : spans[i]? = some span) :
    spanAt spans i = span := by
  rw [spanAt, h, getD_some]

section Run

variable {t : Text} {keep : Nat → Bool} {branch : Branch}

theorem SeparatedAt.spanAt {mark : Char} {i j : Nat} (hmark : IsMark mark)
    (h : SeparatedAt t (braces t) mark i j) :
    (braces t)[i]? = some (spanAt (braces t) i) ∧
      (braces t)[j]? = some (spanAt (braces t) j) ∧ Separated t mark (spanAt (braces t) i)
        (spanAt (braces t) j) := by
  obtain ⟨a, b, ha, hb, hsep⟩ := h
  rw [spanAt_eq ha, spanAt_eq hb]
  exact ⟨ha, hb, (separates_iff hmark).1 hsep⟩

/-- The spans of a branch that is linked. -/
theorem Follows.getElem? (h : branch.Follows t (braces t)) :
    (braces t)[branch.condition]? = some (branch.fork (braces t)).condition ∧
      (braces t)[branch.ifTrue]? = some (branch.fork (braces t)).ifTrue ∧
      (braces t)[branch.last]? = some (branch.fork (braces t)).last := by
  obtain ⟨hcondition, hifTrue, -⟩ := h.ifTrue.spanAt isMark_question
  refine ⟨hcondition, hifTrue, ?_⟩
  cases hifFalse : branch.ifFalse with
  | none => simpa [last, Fork.last, fork, hifFalse] using hifTrue
  | some k =>
    have hk := (((h.ifFalse k).1 hifFalse).spanAt isMark_colon).2.1
    simpa [last, Fork.last, fork, hifFalse] using hk

theorem Follows.fork (h : branch.Follows t (braces t)) : (branch.fork (braces t)).Follows t := by
  obtain ⟨hcondition, hifTrue, hsep⟩ := h.ifTrue.spanAt isMark_question
  refine ⟨mem_of_getElem? hcondition, mem_of_getElem? hifTrue, hsep, fun span => ?_⟩
  constructor
  · intro hspan
    obtain ⟨k, hk, rfl⟩ := map_eq_some_iff.1 hspan
    obtain ⟨-, hget, hsep'⟩ := ((h.ifFalse k).1 hk).spanAt isMark_colon
    exact ⟨mem_of_getElem? hget, hsep'⟩
  · rintro ⟨hmem, hsep'⟩
    obtain ⟨k, hget⟩ := mem_iff_getElem?.1 hmem
    have hk : branch.ifFalse = some k := (h.ifFalse k).2
      ⟨_, span, hifTrue, hget, (separates_iff isMark_colon).2 hsep'⟩
    exact map_eq_some_iff.2 ⟨k, hk, spanAt_eq hget⟩

/-- The text and the spans of the state are what is left of the original ones. -/
structure Shows (t : Text) (keep : Nat → Bool) (state : Text × SpanSet) : Prop where
  text : state.1 = t.kept keep 0
  spans : ∀ (i : Nat) (span : Span), (braces t)[i]? = some span →
    ∃ span', state.2[i]? = some span' ∧ span.Shown t keep span'
  pairs : KeepsPairs t keep

theorem shows_all (t : Text) : Shows t (fun _ => true) (t, braces t) := by
  refine ⟨(kept_of_forall fun _ _ _ => rfl).symm, fun i span hspan => ⟨span, hspan, ?_, ?_⟩,
    fun _ _ _ => rfl⟩
  · exact (exists_braces (mem_of_getElem? hspan)).1
  · intro _
    have hrank : ∀ {n : Nat}, t.IsPlace n → n = rank (fun _ => true) t n := by
      intro n hplace
      obtain ⟨a, b, rfl, rfl⟩ := isPlace_iff.1 hplace
      rw [rank_append, kept_of_forall fun _ _ _ => rfl]
    obtain ⟨-, body, hbody⟩ := exists_braces (mem_of_getElem? hspan)
    obtain ⟨hstart, hstop⟩ := isPlace_of_slice? hbody
    exact ⟨hrank hstart, hrank hstop⟩

/-- A splice of the state follows a carving of what is left. -/
theorem Shows.splice {state : Text × SpanSet} {target source : Extent} (h : Shows t keep state)
    (haligned : (braces t).Aligned t target source) :
    ∃ state', state.2.splice state.1 (t.rankExtent keep target) (t.rankExtent keep source) =
      .ok state' ∧ Shows t (carve keep target source) state' := by
  rw [h.text, splice_kept haligned]
  refine ⟨_, rfl, rfl, fun i span hspan => ?_, h.pairs.carve haligned⟩
  obtain ⟨span', hspan', hshown⟩ := h.spans i span hspan
  refine ⟨_, by rw [getElem?_map, hspan', map_some], ?_⟩
  exact hshown.afterSplice (mem_of_getElem? hspan) h.pairs haligned

/-- The step at a branch follows the step at its original place. -/
theorem Shows.resolveIn (grammar : Grammar) {state : Text × SpanSet} (h : Shows t keep state)
    (hbranch : branch.Follows t (braces t)) :
    ∃ state', Branch.resolveIn grammar state branch = .ok state' ∧
      Shows t ((branch.fork (braces t)).resolve grammar t keep) state' := by
  obtain ⟨text, spans⟩ := state
  have hfork := hbranch.fork
  obtain ⟨hcondition, hifTrue, hlast⟩ := hbranch.getElem?
  generalize hparts : branch.fork (braces t) = fork at hfork hcondition hifTrue hlast
  obtain ⟨condition', hcondition', hshown⟩ := h.spans _ _ hcondition
  obtain ⟨ifTrue', hifTrue', hshown'⟩ := h.spans _ _ hifTrue
  obtain ⟨last', hlast', hshown''⟩ := h.spans _ _ hlast
  have hisValid := isValid_eq hcondition' hifTrue' hlast'
  rw [hshown.valid, hshown'.valid, hshown''.valid] at hisValid
  unfold Fork.resolve
  by_cases hkept : fork.isKept keep
  · rw [if_pos hkept]
    simp only [Fork.isKept, Bool.and_eq_true] at hkept
    obtain ⟨⟨hkeep, hkeep'⟩, hkeep''⟩ := hkept
    have hinner := hshown.inner hfork.condition hkeep h.pairs
    have hinner' := hshown'.inner hfork.ifTrue hkeep' h.pairs
    have hinner'' := hshown''.inner hfork.last_mem hkeep'' h.pairs
    obtain ⟨-, body, hbody⟩ := exists_braces hfork.condition
    have hslice := (Span.encloses_of_slice? rfl rfl hbody).inner
    have hleft : text.slice condition'.inner.start condition'.inner.stop =
        .ok (t.keptIn keep fork.condition.inner) := by
      rw [show text = t.kept keep 0 from h.text, hinner, slice_eq_ok_iff]
      exact (slice?_kept hslice).trans (congrArg some (keptIn_of_slice? hslice).symm)
    have hisSome : branch.ifFalse.isSome = fork.ifFalse.isSome := by
      rw [← hparts, Branch.fork, isSome_map]
    rw [resolveIn_of_valid condition' ifTrue' (get_eq_ok hcondition') (get_eq_ok hifTrue')
      (get_eq_ok hlast') ⟨hshown.valid.trans hkeep, hshown'.valid.trans hkeep',
        hshown''.valid.trans hkeep''⟩ hleft]
    obtain ⟨state', hsplice, hshows⟩ := h.splice (hfork.aligned grammar keep)
    refine ⟨state', ?_, hshows⟩
    rw [← hsplice, hinner', hinner'', hisSome, (hshown.places hkeep).1, (hshown''.places hkeep'').2]
    congr 1
    unfold Fork.source
    split
    · rfl
    · split <;> rfl
  · rw [if_neg hkept]
    rw [Bool.not_eq_true, Fork.isKept] at hkept
    rw [hkept] at hisValid
    refine ⟨_, ?_, h⟩
    simp only [Branch.resolveIn, hisValid, ok_bind]
    rfl

/-- A run of branches follows the run at their original places. -/
theorem Shows.run (grammar : Grammar) {branches : List Branch} {state : Text × SpanSet}
    (h : Shows t keep state)
    (hbranches : ∀ branch ∈ branches, branch.Follows t (braces t)) :
    ∃ state', branches.foldlM (Branch.resolveIn grammar) state = .ok state' ∧
      Shows t ((branches.map (fork (braces t))).foldl (Fork.resolve grammar t) keep) state' := by
  induction branches generalizing keep state with
  | nil => exact ⟨state, rfl, h⟩
  | cons branch branches ih =>
    obtain ⟨hbranch, hlater⟩ := forall_mem_cons.1 hbranches
    obtain ⟨middle, hstep, hmiddle⟩ := h.resolveIn grammar hbranch
    obtain ⟨state', hrun, hshows⟩ := ih hmiddle hlater
    refine ⟨state', ?_, hshows⟩
    rw [foldlM_cons, hstep]
    exact hrun

end Run

/-- The text with every branch resolved is what is left of it when the branches are resolved at
their original places. -/
theorem resolve_eq_kept (grammar : Grammar) {t : Text} {branches : List Branch}
    (hlink : link t (braces t) = .ok branches)
    (hbranches : ∀ branch ∈ branches, branch.Follows t (braces t)) :
    resolve grammar t = .ok (t.kept (Fork.mask grammar t (branches.map (fork (braces t)))) 0) := by
  obtain ⟨state, hrun, hshows⟩ := (shows_all t).run grammar hbranches
  simp only [resolve, hlink, hrun, ok_bind]
  exact congrArg Except.ok hshows.text

end Branch

end SqlScript
