import Mathlib.Data.List.Sort
import SqlScript.Proofs.Keeping

/-!
# Resolving deletes, and only in branches

What lies in no branch is kept, since each step deletes in its own region only
(`Fork.foldl_resolve_of_outside`). A branch that lies in no other one is resolved to the inside of
the part that its condition chooses, and the condition says what it says when its text is resolved
alone. For that, the branches before it are those inside of its condition and others that do not
touch it. The branches inside of the condition are the branches of its text, moved to where the text
stands (`Fork.Lists.filter_eq`), and resolving them there and here keeps the same (`Mirrors.foldl`).
-/

namespace SqlScript

open List Option SpanSet Branch Text Fork Extent

/-! ## A text and a slice of it -/

section Shift

/-- The extent, in a text of which `d` more bytes stand before it. -/
def Extent.shift (d : Nat) (extent : Extent) : Extent :=
  ⟨extent.start + d, extent.stop + d⟩

/-- The span, in a text of which `d` more bytes stand before it. -/
def Span.shift (d : Nat) (span : Span) : Span :=
  ⟨span.start + d, span.stop + d, span.valid⟩

variable {t body : Text} {d e : Nat} {a b : Span}

theorem Text.slice?_shift (h : t.slice? d e = some body) {i j : Nat} (hj : j ≤ body.byteSize) :
    t.slice? (i + d) (j + d) = body.slice? i j := by
  obtain ⟨x, y, rfl, rfl, -⟩ := slice?_eq_some_iff.1 h
  by_cases hle : i ≤ j
  · rw [slice?_append_right _ _ _ _ (by omega) (by omega), Nat.add_sub_cancel,
      Nat.add_sub_cancel, slice?_append_left _ _ hj]
  · rw [Text.slice?, Text.slice?, if_neg (by omega), if_neg hle]

theorem SpanSet.stop_le_byteSize (h : a ∈ braces t) : a.stop ≤ t.byteSize := by
  obtain ⟨-, inside, hinside⟩ := exists_braces h
  exact le_byteSize_of_slice? hinside

/-- The spans of a slice are spans of the text. -/
theorem SpanSet.shift_mem_braces (h : t.slice? d e = some body) (ha : a ∈ braces body) :
    a.shift d ∈ braces t := by
  have hle := stop_le_byteSize ha
  obtain ⟨hvalid, group, hgroup, hslice⟩ := (Nest.mem_find_iff (by decide)).1 ha
  refine (Nest.mem_find_iff (by decide)).2 ⟨hvalid, group, hgroup, ?_⟩
  exact (slice?_shift h hle).trans hslice

/-- The spans of a text that lie in a slice are spans of the slice. -/
theorem SpanSet.exists_shift_of_mem_braces (h : t.slice? d e = some body) (ha : a ∈ braces t)
    (hstart : d ≤ a.start) (hstop : a.stop ≤ e) : ∃ b ∈ braces body, b.shift d = a := by
  have hlt := start_lt_stop ha
  have hsize := add_byteSize_of_slice? h
  obtain ⟨hvalid, group, hgroup, hslice⟩ := (Nest.mem_find_iff (by decide)).1 ha
  have hshift : Span.shift d ⟨a.start - d, a.stop - d, a.valid⟩ = a := by
    simp only [Span.shift, Nat.sub_add_cancel hstart, Nat.sub_add_cancel (show d ≤ a.stop by omega)]
  refine ⟨⟨a.start - d, a.stop - d, a.valid⟩, ?_, hshift⟩
  refine (Nest.mem_find_iff (by decide)).2 ⟨hvalid, group, hgroup, ?_⟩
  rw [← hslice, ← slice?_shift h (show a.stop - d ≤ body.byteSize by omega)]
  rw [Nat.sub_add_cancel hstart, Nat.sub_add_cancel (show d ≤ a.stop by omega)]

theorem Branch.separated_shift_iff (h : t.slice? d e = some body) (mark : Char)
    (hb : b ∈ braces body) :
    Separated t mark (a.shift d) (b.shift d) ↔ Separated body mark a b := by
  have hlt := start_lt_stop hb
  have hle := stop_le_byteSize hb
  have hslice : t.slice? (a.shift d).stop (b.shift d).start = body.slice? a.stop b.start :=
    slice?_shift h (by omega)
  rw [Separated, Separated, hslice]

/-- What is separated from a span inside of another one is inside of it as well. -/
theorem Branch.Separated.around {mark : Char} {c : Span} (hmark : IsMark mark)
    (h : Separated t mark a b) (ha : a ∈ braces t) (hb : b ∈ braces t)
    (hc : c ∈ braces t) (hin : c.Around ⟨a.start, a.stop⟩) : c.Around ⟨b.start, b.stop⟩ := by
  have hle := h.le
  have hlta := start_lt_stop ha
  have hltb := start_lt_stop hb
  -- the closing brace of the outer span does not stand between the two
  obtain ⟨-, inside, hinside⟩ := exists_braces hc
  have hstop := (h.joined hmark).not_stop hinside
  have hnested := eq_or_nested hc hb
  rcases hnested with rfl | hnested
  · simp only [Span.Around, Span.inner] at hin
    omega
  · simp only [Span.Nested, Span.Around, Span.Beside, Span.inner] at hin hnested ⊢
    omega

end Shift

namespace Fork

/-! ## Branches of a text and of a slice of it -/

/-- The branch, in a text of which `d` more bytes stand before it. -/
def shift (d : Nat) (fork : Fork) : Fork :=
  ⟨fork.condition.shift d, fork.ifTrue.shift d, fork.ifFalse.map (Span.shift d)⟩

/-- The condition of the branch lies inside of the span. -/
def Inside (c : Span) (fork : Fork) : Prop :=
  c.Around ⟨fork.condition.start, fork.condition.stop⟩

instance (c : Span) (fork : Fork) : Decidable (Inside c fork) :=
  inferInstanceAs (Decidable (Span.Around _ _))

@[simp] theorem condition_shift (d : Nat) (fork : Fork) :
    (fork.shift d).condition = fork.condition.shift d :=
  rfl

@[simp] theorem ifTrue_shift (d : Nat) (fork : Fork) :
    (fork.shift d).ifTrue = fork.ifTrue.shift d :=
  rfl

@[simp] theorem isSome_shift (d : Nat) (fork : Fork) :
    (fork.shift d).ifFalse.isSome = fork.ifFalse.isSome :=
  isSome_map

@[simp] theorem last_shift (d : Nat) (fork : Fork) : (fork.shift d).last = fork.last.shift d := by
  obtain ⟨condition, ifTrue, ifFalse⟩ := fork
  cases ifFalse <;> rfl

@[simp] theorem region_shift (d : Nat) (fork : Fork) :
    (fork.shift d).region = fork.region.shift d := by
  rw [region, last_shift]
  rfl

section Slice

variable {t body : Text} {c : Span} {fork : Fork}

/-- A branch that starts inside of a span stays inside of it. -/
theorem Follows.region_inside (h : fork.Follows t) (hc : c ∈ braces t)
    (hin : fork.Inside c) : c.Around ⟨fork.ifTrue.start, fork.ifTrue.stop⟩ ∧
      c.Around ⟨fork.last.start, fork.last.stop⟩ := by
  have hifTrue := h.separated.around isMark_question h.condition h.ifTrue hc hin
  refine ⟨hifTrue, ?_⟩
  rcases h.last_cases with ⟨-, hlast⟩ | ⟨-, hlast, hsep⟩
  · rw [hlast]
    exact hifTrue
  · exact hsep.around isMark_colon h.ifTrue hlast hc hifTrue

/-- The branches of the text inside of a span are branches of the whole text. -/
theorem Follows.shift (hc : c ∈ braces t)
    (hbody : t.slice? c.inner.start c.inner.stop = some body) (h : fork.Follows body) :
    (fork.shift c.inner.start).Follows t ∧ (fork.shift c.inner.start).Inside c := by
  have hsize := add_byteSize_of_slice? hbody
  have hin : (fork.shift c.inner.start).Inside c := by
    have hle := stop_le_byteSize h.condition
    exact ⟨Nat.le_add_left _ _, show fork.condition.stop + c.inner.start ≤ c.inner.stop by omega⟩
  have hifTrue := shift_mem_braces hbody h.ifTrue
  have hsep := (separated_shift_iff hbody '?' h.ifTrue).2 h.separated
  refine ⟨⟨shift_mem_braces hbody h.condition, hifTrue, hsep, fun span => ?_⟩, hin⟩
  constructor
  · intro hspan
    obtain ⟨other, hother, rfl⟩ := map_eq_some_iff.1 hspan
    obtain ⟨hmem, hsep'⟩ := (h.ifFalse other).1 hother
    exact ⟨shift_mem_braces hbody hmem, (separated_shift_iff hbody ':' hmem).2 hsep'⟩
  · rintro ⟨hmem, hsep'⟩
    -- a span that a colon separates from the part is inside as well, so it is one of the slice
    have hin' := hsep.around isMark_question (shift_mem_braces hbody h.condition)
      hifTrue hc hin
    have hspan := hsep'.around isMark_colon hifTrue hmem hc hin'
    obtain ⟨other, hother, rfl⟩ := exists_shift_of_mem_braces hbody hmem hspan.1 hspan.2
    exact map_eq_some_iff.2 ⟨other,
      (h.ifFalse other).2 ⟨hother, (separated_shift_iff hbody ':' hother).1 hsep'⟩, rfl⟩

/-- The branches of a text inside of a span are branches of the text there. -/
theorem Follows.exists_shift (hc : c ∈ braces t)
    (hbody : t.slice? c.inner.start c.inner.stop = some body) (h : fork.Follows t)
    (hin : fork.Inside c) : ∃ fork' : Fork, fork'.Follows body ∧
      fork'.shift c.inner.start = fork := by
  obtain ⟨hifTrue, hlast⟩ := h.region_inside hc hin
  obtain ⟨condition', hcondition', hshift⟩ :=
    exists_shift_of_mem_braces hbody h.condition hin.1 hin.2
  obtain ⟨ifTrue', hifTrue', hshift'⟩ :=
    exists_shift_of_mem_braces hbody h.ifTrue hifTrue.1 hifTrue.2
  have hsep : Separated body '?' condition' ifTrue' :=
    (separated_shift_iff hbody '?' hifTrue').1 (by rw [hshift, hshift']; exact h.separated)
  obtain ⟨condition, ifTrue, ifFalse⟩ := fork
  obtain rfl : condition'.shift c.inner.start = condition := hshift
  obtain rfl : ifTrue'.shift c.inner.start = ifTrue := hshift'
  -- a span that is separated in the slice is separated in the text
  have hother : ∀ span ∈ braces body, Separated body ':' ifTrue' span →
      ifFalse = some (span.shift c.inner.start) := fun span hspan hsep' =>
    (h.ifFalse _).2 ⟨shift_mem_braces hbody hspan, (separated_shift_iff hbody ':' hspan).2 hsep'⟩
  cases ifFalse with
  | none =>
    refine ⟨⟨condition', ifTrue', none⟩, ⟨hcondition', hifTrue', hsep, fun span => ?_⟩, rfl⟩
    exact ⟨by rintro ⟨⟩, fun hspan => by cases hother span hspan.1 hspan.2⟩
  | some last =>
    obtain ⟨hmem, hsep'⟩ := (h.ifFalse last).1 rfl
    obtain ⟨last', hlast', rfl⟩ := exists_shift_of_mem_braces hbody hmem hlast.1 hlast.2
    have hsep'' := (separated_shift_iff hbody ':' hlast').1 hsep'
    refine ⟨⟨condition', ifTrue', some last'⟩, ⟨hcondition', hifTrue', hsep, fun span => ?_⟩, rfl⟩
    constructor
    · rintro ⟨⟩
      exact ⟨hlast', hsep''⟩
    · rintro ⟨hspan, hsep'''⟩
      exact congrArg some (hsep''.right_unique isMark_colon hlast' hspan hsep''')

end Slice

/-! ## Lists of branches -/

/-- All the branches of the text, in the order in which their conditions close. -/
structure Lists (t : Text) (forks : List Fork) : Prop where
  ordered : forks.Pairwise fun a b => a.condition.stop < b.condition.stop
  mem : ∀ fork, fork ∈ forks ↔ fork.Follows t

/-- The parts determine the last one. -/
theorem Follows.eq_of_parts_eq {t : Text} {a b : Fork} (ha : a.Follows t) (hb : b.Follows t)
    (hcondition : a.condition = b.condition) (hifTrue : a.ifTrue = b.ifTrue) : a = b := by
  obtain ⟨condition, ifTrue, ifFalse⟩ := a
  obtain ⟨condition', ifTrue', ifFalse'⟩ := b
  obtain rfl : condition = condition' := hcondition
  obtain rfl : ifTrue = ifTrue' := hifTrue
  have hother : ∀ span, ifFalse = some span ↔ ifFalse' = some span := fun span =>
    (ha.ifFalse span).trans (hb.ifFalse span).symm
  rw [Option.ext hother]

/-- The branches that are linked are all the branches of the text. -/
theorem lists_map_fork {t : Text} {branches : List Branch}
    (hordered : branches.Pairwise fun a b => a.condition < b.condition)
    (hmem : ∀ branch, branch ∈ branches ↔ branch.Follows t (braces t)) :
    Lists t (branches.map (fork (braces t))) := by
  constructor
  · refine pairwise_map.2 (hordered.imp_of_mem fun ha hb hlt => ?_)
    exact (stop_lt_iff ((hmem _).1 ha).getElem?.1 ((hmem _).1 hb).getElem?.1).2 hlt
  · intro fork
    rw [List.mem_map]
    constructor
    · rintro ⟨branch, hbranch, rfl⟩
      exact ((hmem branch).1 hbranch).fork
    · intro hfork
      obtain ⟨i, hi⟩ := mem_iff_getElem?.1 hfork.condition
      obtain ⟨j, hj⟩ := mem_iff_getElem?.1 hfork.ifTrue
      obtain ⟨ifFalse, hfollows⟩ := exists_follows
        ⟨_, _, hi, hj, (separates_iff isMark_question).2 hfork.separated⟩
      refine ⟨_, (hmem _).2 hfollows, hfollows.fork.eq_of_parts_eq hfork ?_ ?_⟩
      · exact spanAt_eq hi
      · exact spanAt_eq hj

/-- The branches inside of a span are those of the text there. -/
theorem Lists.filter_eq {t body : Text} {forks inner : List Fork} {c : Span} (h : Lists t forks)
    (hinner : Lists body inner) (hc : c ∈ braces t)
    (hbody : t.slice? c.inner.start c.inner.stop = some body) :
    forks.filter (fun fork => decide (fork.Inside c)) = inner.map (shift c.inner.start) := by
  let r : Fork → Fork → Prop := fun a b => a.condition.stop < b.condition.stop
  have : Std.Irrefl r := ⟨fun a => Nat.lt_irrefl _⟩
  have : Std.Antisymm r := ⟨fun a b hab hba => absurd hab (Nat.lt_asymm hba)⟩
  refine List.Pairwise.eq_of_mem_iff (r := r) (h.ordered.filter _) ?_ fun fork => ?_
  · exact pairwise_map.2 (hinner.ordered.imp fun hlt => Nat.add_lt_add_right hlt _)
  · rw [mem_filter, h.mem, decide_eq_true_eq, List.mem_map]
    constructor
    · rintro ⟨hfork, hin⟩
      obtain ⟨fork', hfork', hshift⟩ := hfork.exists_shift hc hbody hin
      exact ⟨fork', (hinner.mem fork').2 hfork', hshift⟩
    · rintro ⟨fork', hfork', rfl⟩
      exact ((hinner.mem fork').1 hfork').shift hc hbody

/-! ## Steps and runs away from an offset -/

section Frame

variable {t : Text} {grammar : Grammar} {keep : Nat → Bool} {fork : Fork} {forks : List Fork}
  {n : Nat}

theorem resolve_of_outside (h : fork.region.contains n = false) :
    fork.resolve grammar t keep n = keep n := by
  unfold resolve
  split
  · exact carve_of_outside h
  · rfl

theorem foldl_resolve_of_outside (h : ∀ fork ∈ forks, fork.region.contains n = false) :
    forks.foldl (resolve grammar t) keep n = keep n := by
  induction forks generalizing keep with
  | nil => rfl
  | cons fork forks ih =>
    obtain ⟨hfork, hlater⟩ := forall_mem_cons.1 h
    rw [foldl_cons, ih hlater, resolve_of_outside hfork]

theorem keep_of_resolve (h : fork.resolve grammar t keep n) : keep n := by
  unfold resolve at h
  split at h
  · exact keep_of_carve h
  · exact h

/-- What is deleted stays so. -/
theorem keep_of_foldl_resolve (h : forks.foldl (resolve grammar t) keep n) : keep n := by
  induction forks generalizing keep with
  | nil => exact h
  | cons fork forks ih => exact keep_of_resolve (ih h)

theorem mask_append_cons (grammar : Grammar) (t : Text) (front back : List Fork) (fork : Fork) :
    mask grammar t (front ++ fork :: back) =
      back.foldl (resolve grammar t) (fork.resolve grammar t (mask grammar t front)) := by
  rw [mask, foldl_append, foldl_cons]
  rfl

/-- What a step at a branch keeps of it is in the part that is chosen. -/
theorem contains_source (hkept : fork.isKept keep) (hin : fork.region.contains n)
    (h : fork.resolve grammar t keep n) : (fork.source grammar t keep).contains n := by
  rw [resolve, if_pos hkept, carve, hin, Bool.and_eq_true] at h
  exact h.2

end Frame

end Fork

/-! ## Runs in a text and in a slice of it -/

/-- The same is kept of the slice that starts at `d` as of the text of the slice. -/
def Mirrors (d : Nat) (body : Text) (keep keep' : Nat → Bool) : Prop :=
  ∀ n, n < body.byteSize → keep (n + d) = keep' n

section Mirrors

variable {t body : Text} {d e : Nat} {keep keep' : Nat → Bool} {fork : Fork}

theorem Extent.contains_shift (extent : Extent) (d n : Nat) :
    (extent.shift d).contains (n + d) = extent.contains n := by
  simp [contains, shift]

theorem carve_shift (target source : Extent) {n : Nat} (h : keep (n + d) = keep' n) :
    carve keep (target.shift d) (source.shift d) (n + d) = carve keep' target source n := by
  simp only [carve, contains_shift, h]

theorem Span.inner_shift {span : Span} (h : span.start < span.stop) :
    (span.shift d).inner = span.inner.shift d := by
  simp only [Span.inner, Span.shift, Extent.shift, Extent.mk.injEq]
  omega

/-- The same is left of the slice of a span. -/
theorem Mirrors.keptIn (h : Mirrors d body keep keep') (hbody : t.slice? d e = some body) {c : Span}
    (hc : c ∈ braces body) : t.keptIn keep (c.inner.shift d) = body.keptIn keep' c.inner := by
  have hle := stop_le_byteSize hc
  obtain ⟨-, inside, hinside⟩ := exists_braces hc
  have hslice := (Span.encloses_of_slice? rfl rfl hinside).inner
  have hstop : c.inner.stop ≤ body.byteSize := Nat.le_trans (Nat.sub_le _ _) hle
  have hsize := add_byteSize_of_slice? hslice
  have hslice' : t.slice? (c.inner.shift d).start (c.inner.shift d).stop = some inside :=
    (slice?_shift hbody hstop).trans hslice
  rw [show t.keptIn keep (c.inner.shift d) = _ from keptIn_of_slice? hslice',
    show body.keptIn keep' c.inner = _ from keptIn_of_slice? hslice]
  exact (kept_shift keep c.inner.start d inside).trans
    (kept_congr fun k _ hk => h k (by omega))

/-- The step at a branch of the slice keeps the same in the text as in the slice. -/
theorem Mirrors.resolve (grammar : Grammar) (h : Mirrors d body keep keep')
    (hbody : t.slice? d e = some body) (hfork : fork.Follows body) :
    Mirrors d body ((fork.shift d).resolve grammar t keep) (fork.resolve grammar body keep') := by
  have hstart : ∀ {span : Span}, span ∈ SpanSet.braces body →
      keep (span.shift d).start = keep' span.start := by
    intro span hspan
    have hlt := start_lt_stop hspan
    have hle := stop_le_byteSize hspan
    exact h _ (by omega)
  have hisKept : (fork.shift d).isKept keep = fork.isKept keep' := by
    simp only [Fork.isKept, Fork.condition_shift, Fork.ifTrue_shift, Fork.last_shift,
      hstart hfork.condition, hstart hfork.ifTrue, hstart hfork.last_mem]
  have hsource : (fork.shift d).source grammar t keep =
      (fork.source grammar body keep').shift d := by
    have hinner : ∀ {span : Span}, span ∈ SpanSet.braces body →
        (span.shift d).inner = span.inner.shift d := fun hspan =>
      Span.inner_shift (start_lt_stop hspan)
    simp only [Fork.source, Fork.condition_shift, Fork.ifTrue_shift, Fork.isSome_shift,
      Fork.last_shift, Fork.region_shift, hinner hfork.condition, hinner hfork.ifTrue,
      hinner hfork.last_mem, h.keptIn hbody hfork.condition]
    split
    · rfl
    · split <;> rfl
  intro n hn
  simp only [Fork.resolve, hisKept]
  split
  · rw [hsource, Fork.region_shift]
    exact carve_shift _ _ (h n hn)
  · exact h n hn

/-- The branches that do not touch the slice play no role for what is kept of it. -/
theorem Mirrors.foldl (grammar : Grammar) {p : Fork → Bool} {forks inner : List Fork}
    (h : Mirrors d body keep keep') (hbody : t.slice? d e = some body)
    (hfilter : forks.filter p = inner.map (Fork.shift d))
    (hinner : ∀ fork ∈ inner, fork.Follows body)
    (hother : ∀ fork ∈ forks, p fork = false → ∀ n, n < body.byteSize →
      fork.region.contains (n + d) = false) :
    Mirrors d body (forks.foldl (Fork.resolve grammar t) keep)
      (inner.foldl (Fork.resolve grammar body) keep') := by
  induction forks generalizing keep keep' inner with
  | nil =>
    obtain rfl : inner = [] := map_eq_nil_iff.1 hfilter.symm
    exact h
  | cons fork forks ih =>
    obtain ⟨hfork, hlater⟩ := forall_mem_cons.1 hother
    cases hp : p fork with
    | true =>
      rw [filter_cons_of_pos hp] at hfilter
      obtain ⟨first, rest, rfl, rfl, hrest⟩ := map_eq_cons_iff.1 hfilter.symm
      obtain ⟨hfirst, hinner'⟩ := forall_mem_cons.1 hinner
      rw [foldl_cons, foldl_cons]
      exact ih (h.resolve grammar hbody hfirst) hrest.symm hinner' hlater
    | false =>
      rw [filter_cons_of_neg (by simp [hp])] at hfilter
      refine ih (fun n hn => ?_) hfilter hinner hlater
      rw [Fork.resolve_of_outside (hfork hp n hn)]
      exact h n hn

end Mirrors

/-! ## Branches that lie in no other one -/

/-- Each of the other branches lies in the region of the branch, or does not touch it. -/
def Fork.Outermost (forks : List Fork) (fork : Fork) : Prop :=
  ∀ other ∈ forks, other ≠ fork → other.region.stop ≤ fork.region.start ∨
    fork.region.stop ≤ other.region.start ∨
    (fork.region.start ≤ other.region.start ∧ other.region.stop ≤ fork.region.stop)

section Outermost

variable {t body : Text} {forks front back inner : List Fork} {fork : Fork}

/-- The branches whose conditions close before that of an outermost one are inside of its condition,
or do not touch it. -/
theorem Fork.Outermost.front_cases (h : fork.Outermost forks) (hlists : Lists t forks)
    (hsplit : forks = front ++ fork :: back) {other : Fork} (hother : other ∈ front) :
    other.Inside fork.condition ∨ other.region.stop ≤ fork.region.start ∨
      fork.region.stop ≤ other.region.start := by
  have hordered := hlists.ordered
  rw [hsplit] at hordered
  have hlt := (pairwise_append.1 hordered).2.2 other hother fork mem_cons_self
  have hmem : other ∈ forks := by rw [hsplit]; exact mem_append_left _ hother
  have hfork := (hlists.mem fork).1 (by rw [hsplit]; simp)
  have hfollows := (hlists.mem other).1 hmem
  rcases h other hmem (by rintro rfl; omega) with hbefore | hafter | ⟨hstart, -⟩
  · exact .inr (.inl hbefore)
  · exact .inr (.inr hafter)
  · refine .inl ?_
    have hle : fork.condition.start ≤ other.condition.start := hstart
    have hlt' := start_lt_stop hfollows.condition
    rcases eq_or_nested hfork.condition hfollows.condition with heq | hnested
    · rw [heq] at hlt
      omega
    · simp only [Inside, Span.Nested, Span.Around, Span.Beside, Span.inner] at hnested ⊢
      omega

/-- The branches inside of the condition come before the branch. -/
theorem Fork.Lists.filter_front (hlists : Lists t forks)
    (hsplit : forks = front ++ fork :: back) :
    forks.filter (fun other => decide (other.Inside fork.condition)) =
      front.filter fun other => decide (other.Inside fork.condition) := by
  have hordered := hlists.ordered
  rw [hsplit] at hordered ⊢
  have hback := (pairwise_append.1 hordered).2.1
  have hnot : ∀ other ∈ fork :: back, ¬decide (other.Inside fork.condition) := by
    intro other hother hin
    rw [decide_eq_true_eq] at hin
    have hle : fork.condition.stop ≤ other.condition.stop := by
      rcases mem_cons.1 hother with rfl | hother
      · exact Nat.le_refl _
      · exact Nat.le_of_lt ((pairwise_cons.1 hback).1 other hother)
    have hfollows := (hlists.mem other).1 (by rw [hsplit]; exact mem_append_right _ hother)
    have hlt := start_lt_stop hfollows.condition
    simp only [Inside, Span.Around, Span.inner] at hin
    omega
  rw [filter_append, filter_eq_nil_iff.2 hnot, append_nil]

/-- When an outermost branch is reached, all its parts are left, and what is left of its condition
is the text of the condition with its own branches resolved. -/
theorem Fork.Outermost.reached (h : fork.Outermost forks) (grammar : Grammar)
    (hlists : Fork.Lists t forks) (hsplit : forks = front ++ fork :: back)
    (hbody : t.slice? fork.condition.inner.start fork.condition.inner.stop = some body)
    (hinner : Fork.Lists body inner) :
    fork.isKept (Fork.mask grammar t front) ∧
      t.keptIn (Fork.mask grammar t front) fork.condition.inner =
        body.kept (Fork.mask grammar body inner) 0 := by
  have hfork := (hlists.mem fork).1 (by rw [hsplit]; simp)
  have hmem : ∀ other ∈ front, other.Follows t := fun other hother =>
    (hlists.mem other).1 (by rw [hsplit]; exact mem_append_left _ hother)
  obtain ⟨hlt, hle, hlt', hle', hlt'', hle''⟩ := hfork.order
  have hstop : fork.region.stop = fork.last.stop := rfl
  have hstart : fork.region.start = fork.condition.start := rfl
  -- what of the branch is not inside of the condition is in none of the regions before
  have hclear : ∀ {n : Nat}, fork.condition.start ≤ n → n < fork.last.stop →
      (n = fork.condition.start ∨ fork.condition.stop ≤ n) →
      Fork.mask grammar t front n := by
    intro n hn hn' hout
    refine Fork.foldl_resolve_of_outside fun other hother => ?_
    rw [Extent.contains_eq_false_iff]
    rcases h.front_cases hlists hsplit hother with hin | hbeside
    · have hend := ((hmem other hother).region_inside hfork.condition hin).2.2
      have hbegin := hin.1
      simp only [Span.inner, Fork.region] at hend hbegin ⊢
      omega
    · omega
  constructor
  · simp only [Fork.isKept, Bool.and_eq_true]
    exact ⟨⟨hclear (Nat.le_refl _) (by omega) (.inl rfl), hclear (by omega) (by omega) (.inr hle)⟩,
      hclear (by omega) hlt'' (.inr hle')⟩
  · have hsize := add_byteSize_of_slice? hbody
    have hmirrors : Mirrors fork.condition.inner.start body (Fork.mask grammar t front)
        (Fork.mask grammar body inner) := by
      refine Mirrors.foldl (p := fun other => decide (other.Inside fork.condition)) grammar
        (fun _ _ => rfl) hbody ?_ (fun other hother => (hinner.mem other).1 hother) ?_
      · rw [← hlists.filter_front hsplit, hlists.filter_eq hinner hfork.condition hbody]
      · intro other hother hnot n hn
        rw [decide_eq_false_iff_not] at hnot
        have hbeside := (h.front_cases hlists hsplit hother).resolve_left hnot
        rw [Extent.contains_eq_false_iff]
        simp only [Span.inner] at hsize hn ⊢
        omega
    have hshift := kept_shift (Fork.mask grammar t front) 0 fork.condition.inner.start body
    rw [Nat.zero_add] at hshift
    exact (keptIn_of_slice? hbody).trans
      (hshift.trans (kept_congr fun k _ hk => hmirrors k (by omega)))

end Outermost

namespace Branch

theorem Follows.extent {t : Text} {branch : Branch} (h : branch.Follows t (SpanSet.braces t)) :
    branch.extent (SpanSet.braces t) = .ok (branch.fork (SpanSet.braces t)).region := by
  obtain ⟨hcondition, -, hlast⟩ := h.getElem?
  simp only [Branch.extent, get_eq_ok hcondition, get_eq_ok hlast, ok_bind]
  rfl

/-- The branch reaches over the offset. -/
def Reaches (t : Text) (branch : Branch) (n : Nat) : Prop :=
  ∃ region, branch.extent (braces t) = .ok region ∧ region.contains n = true

/-- Each of the other branches lies in the region of the branch, or does not touch it. -/
def Outermost (t : Text) (branches : List Branch) (branch : Branch) : Prop :=
  ∃ region, branch.extent (braces t) = .ok region ∧ ∀ other ∈ branches, other ≠ branch →
    ∃ region', other.extent (braces t) = .ok region' ∧
      (region'.stop ≤ region.start ∨ region.stop ≤ region'.start ∨
        (region.start ≤ region'.start ∧ region'.stop ≤ region.stop))

/-- The source is the inside of the part of the branch that its condition chooses, or is empty if
the branch does not have that part. The condition is evaluated with its own branches resolved. -/
def Chooses (grammar : Grammar) (t : Text) (branch : Branch) (source : Extent) : Prop :=
  ∃ condition body resolved holds, (braces t).get branch.condition = .ok condition ∧
    t.slice condition.inner.start condition.inner.stop = .ok body ∧
    resolve grammar body = .ok resolved ∧ Condition.eval grammar resolved = .ok holds ∧
    match if holds then some branch.ifTrue else branch.ifFalse with
    | some index => ∃ chosen, (braces t).get index = .ok chosen ∧ source = chosen.inner
    | none => source.size = 0

theorem Outermost.fork {t : Text} {branches : List Branch} {branch : Branch}
    (h : branch.Outermost t branches) (hbranch : branch.Follows t (braces t))
    (hbranches : ∀ other ∈ branches, other.Follows t (braces t)) :
    (branch.fork (braces t)).Outermost (branches.map (fork (braces t))) := by
  obtain ⟨region, hregion, hothers⟩ := h
  cases hbranch.extent.symm.trans hregion
  intro fork hfork hne
  obtain ⟨other, hother, rfl⟩ := List.mem_map.1 hfork
  obtain ⟨region', hregion', hcases⟩ := hothers other hother (by rintro rfl; exact hne rfl)
  obtain rfl := Except.ok.inj ((hbranches other hother).extent.symm.trans hregion')
  exact hcases

/-- The part that an original branch is resolved to is the one that its condition chooses. -/
theorem chooses_source {grammar : Grammar} {t body resolved : Text} {keep : Nat → Bool}
    {branch : Branch} (hbranch : branch.Follows t (braces t))
    (hbody : t.slice? (branch.fork (braces t)).condition.inner.start
      (branch.fork (braces t)).condition.inner.stop = some body)
    (hresolved : resolve grammar body = .ok resolved)
    (hleft : t.keptIn keep (branch.fork (braces t)).condition.inner = resolved) :
    branch.Chooses grammar t ((branch.fork (braces t)).source grammar t keep) := by
  obtain ⟨hcondition, hifTrue, hlast⟩ := hbranch.getElem?
  refine ⟨_, body, resolved, _, get_eq_ok hcondition, slice_eq_ok_iff.2 hbody, hresolved,
    Condition.eval_eq_ok_holds grammar resolved, ?_⟩
  rw [source, hleft]
  cases Condition.holds grammar resolved with
  | true => exact ⟨_, get_eq_ok hifTrue, rfl⟩
  | false =>
    cases hifFalse : branch.ifFalse with
    | none => simp [fork, hifFalse, size]
    | some index =>
      rw [last, hifFalse, getD_some] at hlast
      exact ⟨_, get_eq_ok hlast, by simp [fork, hifFalse]⟩

/-- Resolving deletes characters and keeps the others in order. What no branch reaches over is kept,
and what is kept of a branch that lies in no other one is in the part that its condition chooses. -/
theorem resolve_deletes_in_branches (grammar : Grammar) (t : Text) :
    ∃ branches keep, link t (SpanSet.braces t) = .ok branches ∧
      resolve grammar t = .ok (t.kept keep 0) ∧
      (∀ n, (∀ branch ∈ branches, ¬branch.Reaches t n) → keep n = true) ∧
      ∀ branch ∈ branches, branch.Outermost t branches →
        ∃ source, branch.Chooses grammar t source ∧
          ∀ n, branch.Reaches t n → keep n = true → source.contains n = true := by
  obtain ⟨branches, hlink, hordered, hmem⟩ := exists_link_follows t
  have hfollows : ∀ branch ∈ branches, branch.Follows t (SpanSet.braces t) := fun branch hbranch =>
    (hmem branch).1 hbranch
  have hlists := Fork.lists_map_fork hordered hmem
  refine ⟨branches, _, hlink, resolve_eq_kept grammar hlink hfollows, ?_, ?_⟩
  · intro n hn
    refine Fork.foldl_resolve_of_outside fun fork hfork => ?_
    obtain ⟨branch, hbranch, rfl⟩ := List.mem_map.1 hfork
    rw [← Bool.not_eq_true]
    exact fun hin => hn branch hbranch ⟨_, (hfollows branch hbranch).extent, hin⟩
  · intro branch hbranch houtermost
    have hbranch' := hfollows branch hbranch
    obtain ⟨front, back, rfl⟩ := List.append_of_mem hbranch
    have hsplit : (front ++ branch :: back).map (Branch.fork (SpanSet.braces t)) =
        front.map (Branch.fork (SpanSet.braces t)) ++ branch.fork (SpanSet.braces t) ::
          back.map (Branch.fork (SpanSet.braces t)) := by
      rw [List.map_append, List.map_cons]
    obtain ⟨-, inside, hinside⟩ := SpanSet.exists_braces hbranch'.fork.condition
    have hbody := (Span.encloses_of_slice? rfl rfl hinside).inner
    obtain ⟨branches', hlink', hordered', hmem'⟩ := exists_link_follows inside
    obtain ⟨hkept, hleft⟩ := (houtermost.fork hbranch' hfollows).reached grammar hlists hsplit hbody
      (Fork.lists_map_fork hordered' hmem')
    refine ⟨_, chooses_source hbranch' hbody (resolve_eq_kept grammar hlink' fun branch hbranch =>
      (hmem' branch).1 hbranch) hleft, ?_⟩
    rintro n ⟨region, hregion, hin⟩ hkeep
    obtain rfl := Except.ok.inj (hbranch'.extent.symm.trans hregion)
    -- the steps after the branch delete more, so what is kept was kept by its own step
    rw [hsplit, Fork.mask_append_cons] at hkeep
    exact Fork.contains_source hkept hin (Fork.keep_of_foldl_resolve hkeep)

end Branch

end SqlScript
