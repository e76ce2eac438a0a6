import Mathlib.Logic.ExistsUnique
import SqlScript.Proofs.Linking
import SqlScript.Proofs.Waiting

/-!
# Each span has one neighbour at most

A branch is linked by a search : the first later span that a question mark separates from the
condition becomes its part, and the first one after that which a colon separates from the part
becomes the other part. The order of the search plays no role. What stands between separated spans
holds no brace, so no third span starts or ends there (`Separated.right_unique`,
`Separated.left_unique`), and the second of them stops later than the first, hence is listed later
(`SeparatedAt.lt`).

So the branches that are linked can be read off the relation alone (`Branch.Follows`) : one for each
pair that a question mark separates, in the order in which the conditions close
(`link_follows_separation`).
-/

namespace SqlScript

open List SpanSet Option Text

/-- A character of the text that lies between two offsets stands in the slice between them. -/
theorem Text.mem_of_slice? {a b m : Text} {c : Char} {i j : Nat}
    (h : (a ++ c :: b).slice? i j = some m) (hi : i ≤ a.byteSize) (hj : a.byteSize < j) :
    c ∈ m := by
  obtain ⟨x, y, htext, rfl, rfl⟩ := slice?_eq_some_iff.1 h
  obtain ⟨a, rfl, hrest⟩ := exists_append_of_byteSize_le htext.symm hi
  rw [byteSize_append] at hj
  obtain ⟨m', rfl, hm'⟩ := exists_append_of_byteSize_le hrest.symm (by omega)
  cases m' with
  | nil => simp at hj
  | cons d m' =>
    cases hm'
    simp

/-! ## Spans that are joined -/

/-- The second span follows the first one with no brace between them. -/
def Span.Joined (t : Text) (a b : Span) : Prop :=
  ∃ gap, t.slice? a.stop b.start = some gap ∧ '\x7b' ∉ gap ∧ '\x7d' ∉ gap

section Joined

variable {t : Text} {a b span : Span} {body : Text}

theorem Span.Joined.le (h : Span.Joined t a b) : a.stop ≤ b.start := by
  obtain ⟨gap, hgap, -⟩ := h
  have hsize := add_byteSize_of_slice? hgap
  omega

/-- No span starts between joined spans. -/
theorem Span.Joined.not_start (h : Span.Joined t a b)
    (hspan : t.slice? span.start span.stop = some ('\x7b' :: (body ++ ['\x7d']))) :
    ¬(a.stop ≤ span.start ∧ span.start < b.start) := by
  rintro ⟨hle, hlt⟩
  obtain ⟨gap, hgap, hopening, -⟩ := h
  obtain ⟨before, after, rfl, hstart, -⟩ := slice?_eq_some_iff.1 hspan
  rw [cons_append] at hgap
  exact hopening (mem_of_slice? hgap (by omega) (by omega))

/-- No span ends between joined spans. -/
theorem Span.Joined.not_stop (h : Span.Joined t a b)
    (hspan : t.slice? span.start span.stop = some ('\x7b' :: (body ++ ['\x7d']))) :
    ¬(a.stop < span.stop ∧ span.stop ≤ b.start) := by
  rintro ⟨hlt, hle⟩
  obtain ⟨gap, hgap, -, hclosing⟩ := h
  obtain ⟨before, after, rfl, hstart, hstop⟩ := slice?_eq_some_iff.1 hspan
  have hplace : (before ++ '\x7b' :: body).byteSize + 1 = span.stop := by
    rw [← hstop]
    simp [Nat.add_assoc, show '\x7d'.utf8Size = 1 from rfl]
  have htext : before ++ ('\x7b' :: (body ++ ['\x7d']) ++ after) =
      before ++ '\x7b' :: body ++ '\x7d' :: after := by simp
  rw [htext] at hgap
  exact hclosing (mem_of_slice? hgap (by omega) (by omega))

end Joined

namespace SpanSet

/-- Two valid spans of a truthful set are the same or nested or share no byte. -/
theorem Truthful.eq_or_nested {opening closing : Char} {t : Text} {spans : SpanSet}
    (h : spans.Truthful opening closing t) {a b : Span} (ha : a ∈ spans) (hb : b ∈ spans)
    (hva : a.valid) (hvb : b.valid) : a = b ∨ a.Nested b := by
  have hall : a.valid → b.valid → a = b ∨ a.Nested b :=
    List.Pairwise.forall_of_forall_of_flip
      (R := fun a b => a.valid → b.valid → a = b ∨ a.Nested b)
      (fun _ _ _ _ => .inl rfl) (h.nested.imp fun h hva hvb => .inr (h hva hvb))
      (h.nested.imp fun {a b} h hvb hva => by
        have hnested := h hva hvb
        refine .inr ?_
        simp only [Span.Nested, Span.Around, Span.Beside, Span.inner] at hnested ⊢
        omega) ha hb
  exact hall hva hvb

/-- The spans of the braces of a text. -/
abbrev braces (t : Text) : SpanSet :=
  find '\x7b' '\x7d' t

variable {t : Text} {a b : Span}

/-- A span that is found is valid and has its braces. -/
theorem exists_braces (h : a ∈ braces t) : a.valid ∧ ∃ body : Text,
    t.slice? a.start a.stop = some ('\x7b' :: (body ++ ['\x7d'])) := by
  have hvalid := ((Nest.mem_find_iff (by decide)).1 h).1
  exact ⟨hvalid, (truthful_find '\x7b' '\x7d' t).delimited a h hvalid⟩

theorem start_lt_stop (h : a ∈ braces t) : a.start < a.stop :=
  (truthful_find '\x7b' '\x7d' t).start_lt_stop h (exists_braces h).1

/-- Two spans that are found are the same or nested or share no byte. -/
theorem eq_or_nested (ha : a ∈ braces t) (hb : b ∈ braces t) : a = b ∨ a.Nested b :=
  (truthful_find '\x7b' '\x7d' t).eq_or_nested ha hb (exists_braces ha).1 (exists_braces hb).1

/-- No two spans have an end in common. -/
theorem eq_of_start_eq_or_stop_eq (ha : a ∈ braces t) (hb : b ∈ braces t)
    (h : a.start = b.start ∨ a.stop = b.stop) : a = b := by
  refine (eq_or_nested ha hb).resolve_right fun hnested => ?_
  have hlta := start_lt_stop ha
  have hltb := start_lt_stop hb
  simp only [Span.Nested, Span.Around, Span.Beside, Span.inner] at hnested
  omega

/-- The spans are listed in the order in which they stop. -/
theorem stop_lt_iff {i j : Nat} (ha : (braces t)[i]? = some a)
    (hb : (braces t)[j]? = some b) : a.stop < b.stop ↔ i < j := by
  have hordered : (braces t).Pairwise fun a b => a.stop < b.stop := by
    rw [braces, Nest.find_eq_spans]
    exact Nest.pairwise_stop _ _
  have hstop := pairwise_iff_getElem.1 hordered
  obtain ⟨hi, rfl⟩ := List.getElem?_eq_some_iff.1 ha
  obtain ⟨hj, rfl⟩ := List.getElem?_eq_some_iff.1 hb
  rcases Nat.lt_trichotomy i j with hlt | rfl | hgt
  · exact ⟨fun _ => hlt, fun _ => hstop i j hi hj hlt⟩
  · simp
  · have := hstop j i hj hi hgt
    omega

theorem index_unique {i j : Nat} (hi : (braces t)[i]? = some a)
    (hj : (braces t)[j]? = some a) : i = j := by
  have hlt := stop_lt_iff hi hj
  have hgt := stop_lt_iff hj hi
  omega

end SpanSet

namespace Branch

/-! ## Separated spans -/

section Unique

variable {t : Text} {mark : Char} {a b c : Span}

/-- Spans that a mark separates are joined. -/
theorem Separated.joined (hmark : IsMark mark) (h : Separated t mark a b) : Span.Joined t a b := by
  obtain ⟨p, q, hp, hq, hgap⟩ := h
  have hno : ∀ c, isBlank c = false → mark ≠ c → c ∉ p ++ mark :: q := by
    intro c hblank hne hmem
    rw [mem_append, mem_cons] at hmem
    rcases hmem with hmem | hmem | hmem
    · exact absurd (hp c hmem) (by simp [hblank])
    · exact hne hmem.symm
    · exact absurd (hq c hmem) (by simp [hblank])
  exact ⟨_, hgap, hno _ (by decide) hmark.spec.2.1, hno _ (by decide) hmark.spec.2.2⟩

/-- One span at most follows behind a mark. -/
theorem Separated.right_unique (hmark : IsMark mark) (hb : b ∈ braces t)
    (hc : c ∈ braces t) (h : Separated t mark a b) (h' : Separated t mark a c) : b = c := by
  obtain ⟨-, body, hbody⟩ := exists_braces hb
  obtain ⟨-, body', hbody'⟩ := exists_braces hc
  -- the opening brace of neither stands between `a` and the other
  have hc' := (h.joined hmark).not_start hbody'
  have hb' := (h'.joined hmark).not_start hbody
  have hle := h.le
  have hle' := h'.le
  exact eq_of_start_eq_or_stop_eq hb hc (.inl (by omega))

/-- One span at most stands before a mark. -/
theorem Separated.left_unique (hmark : IsMark mark) (ha : a ∈ braces t)
    (hb : b ∈ braces t) (h : Separated t mark a c) (h' : Separated t mark b c) : a = b := by
  obtain ⟨-, body, hbody⟩ := exists_braces ha
  obtain ⟨-, body', hbody'⟩ := exists_braces hb
  -- the closing brace of neither stands between the other and `c`
  have ha' := (h.joined hmark).not_stop hbody'
  have hb' := (h'.joined hmark).not_stop hbody
  have hle := h.le
  have hle' := h'.le
  exact eq_of_start_eq_or_stop_eq ha hb (.inr (by omega))

end Unique

/-! ## Separated indices -/

/-- The spans with the two indices are separated by the mark. -/
def SeparatedAt (t : Text) (spans : SpanSet) (mark : Char) (i j : Nat) : Prop :=
  ∃ a b, spans[i]? = some a ∧ spans[j]? = some b ∧ separates t mark a b = true

section Indices

variable {t : Text} {mark : Char} {i j k : Nat}

theorem SeparatedAt.lt (hmark : IsMark mark) (h : SeparatedAt t (braces t) mark i j) : i < j := by
  obtain ⟨a, b, ha, hb, hsep⟩ := h
  have hle := ((separates_iff hmark).1 hsep).le
  have hlt := start_lt_stop (mem_of_getElem? hb)
  exact (stop_lt_iff ha hb).1 (by omega)

theorem SeparatedAt.right_unique (hmark : IsMark mark) (h : SeparatedAt t (braces t) mark i j)
    (h' : SeparatedAt t (braces t) mark i k) : j = k := by
  obtain ⟨a, b, ha, hb, hsep⟩ := h
  obtain ⟨a', c, ha', hc, hsep'⟩ := h'
  cases ha.symm.trans ha'
  obtain rfl := Separated.right_unique hmark (mem_of_getElem? hb) (mem_of_getElem? hc)
    ((separates_iff hmark).1 hsep) ((separates_iff hmark).1 hsep')
  exact index_unique hb hc

/-- The span that is separated is the only one. -/
theorem SeparatedAt.some_eq_iff (hmark : IsMark mark) (h : SeparatedAt t (braces t) mark i j) :
    some j = some k ↔ SeparatedAt t (braces t) mark i k := by
  rw [some.injEq]
  refine ⟨?_, h.right_unique hmark⟩
  rintro rfl
  exact h

theorem SeparatedAt.left_unique (hmark : IsMark mark) (h : SeparatedAt t (braces t) mark i k)
    (h' : SeparatedAt t (braces t) mark j k) : i = j := by
  obtain ⟨a, c, ha, hc, hsep⟩ := h
  obtain ⟨b, c', hb, hc', hsep'⟩ := h'
  cases hc.symm.trans hc'
  obtain rfl := Separated.left_unique hmark (mem_of_getElem? ha) (mem_of_getElem? hb)
    ((separates_iff hmark).1 hsep) ((separates_iff hmark).1 hsep')
  exact index_unique ha hb

end Indices

/-! ## Branches by separation -/

/-- The branch has a condition and a part that a question mark separates, and for its other part the
span that a colon separates from the first one, if there is such a span. -/
structure Follows (t : Text) (spans : SpanSet) (branch : Branch) : Prop where
  ifTrue : SeparatedAt t spans '?' branch.condition branch.ifTrue
  ifFalse : ∀ k, branch.ifFalse = some k ↔ SeparatedAt t spans ':' branch.ifTrue k

theorem isMark_question : IsMark '?' :=
  .inl rfl

theorem isMark_colon : IsMark ':' :=
  .inr rfl

/-- The condition of a branch determines its parts. -/
theorem Follows.eq_of_condition_eq {t : Text} {branch other : Branch}
    (h : branch.Follows t (braces t)) (h' : other.Follows t (braces t))
    (hcondition : branch.condition = other.condition) : branch = other := by
  obtain ⟨condition, ifTrue, ifFalse⟩ := branch
  obtain ⟨condition', ifTrue', ifFalse'⟩ := other
  obtain rfl : condition = condition' := hcondition
  obtain rfl : ifTrue = ifTrue' := h.ifTrue.right_unique isMark_question h'.ifTrue
  have hother : ∀ k, ifFalse = some k ↔ ifFalse' = some k := fun k =>
    (h.ifFalse k).trans (h'.ifFalse k).symm
  rw [ext hother]

section Link

variable {t : Text} {n : Nat}

/-- The spans from index `n` on, with their indices. -/
def numberedFrom (t : Text) (n : Nat) : List (Span × Nat) :=
  ((braces t).drop n).zipIdx n

theorem mem_numberedFrom {entry : Span × Nat} : entry ∈ numberedFrom t n ↔
    n ≤ entry.2 ∧ (braces t)[entry.2]? = some entry.1 := by
  obtain ⟨span, i⟩ := entry
  rw [numberedFrom, mk_mem_zipIdx_iff_le_and_getElem?_sub, getElem?_drop]
  constructor
  · rintro ⟨hle, hspan⟩
    exact ⟨hle, by rwa [Nat.add_sub_of_le hle] at hspan⟩
  · rintro ⟨hle, hspan⟩
    exact ⟨hle, by rwa [Nat.add_sub_of_le hle]⟩

theorem numbered_numberedFrom (t : Text) (n : Nat) : Numbered t (braces t) (numberedFrom t n) := by
  intro entry hmem
  obtain ⟨-, hspan⟩ := mem_numberedFrom.1 hmem
  exact ⟨hspan, (exists_braces (mem_of_getElem? hspan)).2⟩

theorem numberedFrom_eq_cons {span : Span} {i : Nat} {later : List (Span × Nat)}
    (h : numberedFrom t n = (span, i) :: later) : i = n ∧ later = numberedFrom t (n + 1) := by
  unfold numberedFrom at *
  cases hdrop : (braces t).drop n with
  | nil => simp [hdrop] at h
  | cons first rest =>
    rw [hdrop, zipIdx_cons] at h
    obtain ⟨hhead, rfl⟩ := List.cons.inj h
    refine ⟨(Prod.mk.inj hhead).2.symm, ?_⟩
    rw [← drop_drop, hdrop, drop_one, tail_cons]

theorem eq_numberedFrom_of_append {skipped rest : List (Span × Nat)} {next : Span × Nat}
    (h : numberedFrom t n = skipped ++ next :: rest) : rest = numberedFrom t (next.2 + 1) := by
  induction skipped generalizing n with
  | nil =>
    obtain ⟨hindex, hrest⟩ := numberedFrom_eq_cons h
    rw [hrest, hindex]
  | cons entry skipped ih =>
    obtain ⟨-, hrest⟩ := numberedFrom_eq_cons h
    exact ih hrest.symm

/-- The search among the later spans finds the one that the mark separates, and nothing else. -/
theorem exists_firstSeparated?_numberedFrom {mark : Char} (hmark : IsMark mark) {span : Span}
    (hspan : (braces t)[n]? = some span) :
    ∃ found, firstSeparated? t mark span (numberedFrom t (n + 1)) = .ok found ∧
      (∀ k, found.map (fun next => next.1.2) = some k ↔
        SeparatedAt t (braces t) mark n k) ∧
      ∀ next rest, found = some (next, rest) →
        (braces t)[next.2]? = some next.1 ∧ rest = numberedFrom t (next.2 + 1) := by
  obtain ⟨-, body, hbody⟩ := exists_braces (mem_of_getElem? hspan)
  have hplace := (Text.isPlace_of_slice? hbody).2
  obtain ⟨found, hfound, hnone, hsome⟩ :=
    exists_firstSeparated? hmark hplace (numbered_numberedFrom t (n + 1))
  have hright : ∀ next rest, found = some (next, rest) →
      SeparatedAt t (braces t) mark n next.2 ∧
        (braces t)[next.2]? = some next.1 ∧ rest = numberedFrom t (next.2 + 1) := by
    intro next rest hnext
    obtain ⟨hgap, skipped, hskipped⟩ := hsome next rest hnext
    have hget := (mem_numberedFrom.1 (by rw [hskipped]; simp : next ∈ numberedFrom t (n + 1))).2
    exact ⟨⟨span, next.1, hspan, hget, (separates_iff hmark).2 hgap⟩, hget,
      eq_numberedFrom_of_append hskipped⟩
  refine ⟨found, hfound, fun k => ⟨fun hk => ?_, fun hk => ?_⟩, fun next rest hnext =>
    (hright next rest hnext).2⟩
  · obtain ⟨⟨next, rest⟩, hnext, rfl⟩ := map_eq_some_iff.1 hk
    exact (hright next rest hnext).1
  · cases hfind : found with
    | none =>
      -- the span that the mark separates is listed later, so the search passes it
      have hlt := hk.lt hmark
      obtain ⟨a, b, ha, hb, hsep⟩ := hk
      cases hspan.symm.trans ha
      exact absurd ((separates_iff hmark).1 hsep)
        (hnone hfind (b, k) (mem_numberedFrom.2 ⟨hlt, hb⟩))
    | some found =>
      obtain ⟨next, rest⟩ := found
      exact congrArg some ((hright next rest hfind).1.right_unique hmark hk)

/-- The branches with a condition from index `n` on. -/
theorem exists_linkFrom_numberedFrom (t : Text) (n : Nat) : ∃ branches,
    linkFrom t (numberedFrom t n) = .ok branches ∧
      branches.Pairwise (fun a b => a.condition < b.condition) ∧
      ∀ branch, branch ∈ branches ↔ n ≤ branch.condition ∧ branch.Follows t (braces t) := by
  generalize hlater : numberedFrom t n = later
  induction later generalizing n with
  | nil =>
    refine ⟨[], rfl, .nil, fun branch => ?_⟩
    simp only [not_mem_nil, false_iff]
    rintro ⟨hle, ⟨a, b, ha, -⟩, -⟩
    have hmem : (a, branch.condition) ∈ numberedFrom t n := mem_numberedFrom.2 ⟨hle, ha⟩
    simp [hlater] at hmem
  | cons entry later ih =>
    obtain ⟨span, index⟩ := entry
    obtain ⟨rfl, rfl⟩ := numberedFrom_eq_cons hlater
    have hspan : (braces t)[index]? = some span :=
      (mem_numberedFrom.1 (by rw [hlater]; exact mem_cons_self)).2
    obtain ⟨branches, hbranches, hordered, hmem⟩ := ih (index + 1) rfl
    obtain ⟨found, hfound, hthen, hrest⟩ :=
      exists_firstSeparated?_numberedFrom isMark_question hspan
    have hnext : ∀ {branch : Branch}, index ≤ branch.condition ↔
        branch.condition = index ∨ index + 1 ≤ branch.condition := by
      intro branch
      omega
    cases found with
    | none =>
      refine ⟨branches, by simp only [linkFrom, hfound, ok_bind, hbranches], hordered, ?_⟩
      intro branch
      rw [hmem, hnext]
      refine ⟨fun h => ⟨.inr h.1, h.2⟩, ?_⟩
      rintro ⟨rfl | hle, hfollows⟩
      · cases (hthen _).2 hfollows.ifTrue
      · exact ⟨hle, hfollows⟩
    | some found =>
      obtain ⟨⟨next, nextIndex⟩, rest⟩ := found
      obtain ⟨hget, rfl⟩ := hrest _ _ rfl
      obtain ⟨other, hother, helse, -⟩ := exists_firstSeparated?_numberedFrom isMark_colon hget
      have hfollows : Follows t (braces t)
          ⟨index, nextIndex, other.map fun next => next.1.2⟩ := ⟨(hthen nextIndex).1 rfl, helse⟩
      refine ⟨_, (linkFrom_cons hfound hother).trans (by rw [hbranches]; rfl), ?_, ?_⟩
      · refine pairwise_cons.2 ⟨fun branch hbranch => ?_, hordered⟩
        exact ((hmem branch).1 hbranch).1
      · intro branch
        rw [mem_cons, hmem, hnext]
        constructor
        · rintro (rfl | h)
          · exact ⟨.inl rfl, hfollows⟩
          · exact ⟨.inr h.1, h.2⟩
        · rintro ⟨hcondition | hle, h⟩
          · exact .inl (h.eq_of_condition_eq hfollows hcondition)
          · exact .inr ⟨hle, h⟩

/-- The branches that are linked are those that follow from separation, in the order of their
conditions. -/
theorem exists_link_follows (t : Text) : ∃ branches,
    link t (braces t) = .ok branches ∧
      branches.Pairwise (fun a b => a.condition < b.condition) ∧
      ∀ branch, branch ∈ branches ↔ branch.Follows t (braces t) := by
  obtain ⟨branches, hlink, hordered, hmem⟩ := exists_linkFrom_numberedFrom t 0
  exact ⟨branches, hlink, hordered, fun branch => (hmem branch).trans (by simp)⟩

/-- A span that has a part behind it is the condition of a branch. -/
theorem exists_follows {i j : Nat} (h : SeparatedAt t (braces t) '?' i j) :
    ∃ ifFalse, Follows t (braces t) ⟨i, j, ifFalse⟩ := by
  by_cases hother : ∃ k, SeparatedAt t (braces t) ':' j k
  · obtain ⟨k, hk⟩ := hother
    exact ⟨some k, h, fun k' => hk.some_eq_iff isMark_colon⟩
  · exact ⟨none, h, fun k => ⟨by rintro ⟨⟩, fun hk => absurd ⟨k, hk⟩ hother⟩⟩

end Link

/-! ## Branches of a stretch of spans -/

section Lists

variable {t : Text} {lo hi : Nat} {branches : List Branch}

theorem SeparatedAt.lt_length {spans : SpanSet} {mark : Char} {i j : Nat}
    (h : SeparatedAt t spans mark i j) : j < spans.length := by
  obtain ⟨-, b, -, hb, -⟩ := h
  exact (List.getElem?_eq_some_iff.1 hb).1

/-- The branches are all those with a condition from `lo` up to `hi`, in the order of their
conditions. -/
structure Lists (t : Text) (lo hi : Nat) (branches : List Branch) : Prop where
  ordered : branches.Pairwise fun a b => a.condition < b.condition
  mem_iff : ∀ branch, branch ∈ branches ↔
    lo ≤ branch.condition ∧ branch.condition < hi ∧ branch.Follows t (braces t)

/-- The branches with a condition below `mid` come first. -/
theorem Lists.exists_append (h : Lists t lo hi branches) {mid : Nat} (hlo : lo ≤ mid)
    (hhi : mid ≤ hi) : ∃ front back, branches = front ++ back ∧ Lists t lo mid front ∧
      Lists t mid hi back := by
  obtain ⟨front, back, rfl, hfront, hback⟩ : ∃ front back, branches = front ++ back ∧
      (∀ branch ∈ front, branch.condition < mid) ∧ ∀ branch ∈ back, mid ≤ branch.condition := by
    have hordered := h.ordered
    clear h
    induction branches with
    | nil => exact ⟨[], [], by simp⟩
    | cons branch branches ih =>
      obtain ⟨hbranch, hordered⟩ := pairwise_cons.1 hordered
      by_cases hlt : branch.condition < mid
      · obtain ⟨front, back, rfl, hfront, hback⟩ := ih hordered
        exact ⟨branch :: front, back, rfl, forall_mem_cons.2 ⟨hlt, hfront⟩, hback⟩
      · refine ⟨[], branch :: branches, rfl, by simp, forall_mem_cons.2 ⟨by omega, ?_⟩⟩
        intro other hmem
        have := hbranch other hmem
        omega
  obtain ⟨hordered, hordered', -⟩ := pairwise_append.1 h.ordered
  refine ⟨front, back, rfl, ⟨hordered, fun branch => ?_⟩, ⟨hordered', fun branch => ?_⟩⟩
  all_goals
    have hmem := h.mem_iff branch
    have := hfront branch
    have := hback branch
    grind

/-- A span is the condition of one branch at most. -/
theorem Lists.eq_singleton {branch : Branch} (h : Lists t lo (lo + 1) branches)
    (hbranch : branch.Follows t (braces t)) (hlo : branch.condition = lo) :
    branches = [branch] := by
  have hall : ∀ other ∈ branches, other = branch := fun other hmem => by
    obtain ⟨hle, hlt, hother⟩ := (h.mem_iff other).1 hmem
    exact hother.eq_of_condition_eq hbranch (by omega)
  have hmem := (h.mem_iff branch).2 ⟨by omega, by omega, hbranch⟩
  have hordered := h.ordered
  cases branches with
  | nil => cases hmem
  | cons first rest =>
    obtain ⟨rfl, hrest⟩ := forall_mem_cons.1 hall
    cases rest with
    | nil => rfl
    | cons second rest =>
      obtain ⟨rfl, -⟩ := forall_mem_cons.1 hrest
      exact absurd ((pairwise_cons.1 hordered).1 _ mem_cons_self) (Nat.lt_irrefl _)

/-- A branch whose condition is a span with the given index. -/
def StrayAt (total index : Nat) (branch : Branch) : Prop :=
  branch.condition = index ∧ branch.ifTrue < total ∧ branch.last < total

theorem Lists.strayAt (h : Lists t lo (lo + 1) branches) :
    ∀ branch ∈ branches, branch.StrayAt (braces t).length lo := by
  intro branch hmem
  obtain ⟨hle, hlt, hbranch⟩ := (h.mem_iff branch).1 hmem
  refine ⟨by omega, hbranch.ifTrue.lt_length, ?_⟩
  cases hfalse : branch.ifFalse with
  | none => simpa [last, hfalse] using hbranch.ifTrue.lt_length
  | some k => simpa [last, hfalse] using ((hbranch.ifFalse k).1 hfalse).lt_length

theorem drop_succ_of_eq_cons {spans rest : SpanSet} {span : Span} {n : Nat}
    (h : spans.drop n = span :: rest) : spans[n]? = some span ∧ spans.drop (n + 1) = rest := by
  rw [← head?_drop, ← tail_drop, h]
  exact ⟨rfl, rfl⟩

/-- A mark right between two spans separates them. -/
theorem separatedAt_of_append {mark : Char} (hmark : IsMark mark) {before after : Text} {a b : Span}
    {i j : Nat} (ht : t = before ++ mark :: after) (ha : (braces t)[i]? = some a)
    (hb : (braces t)[j]? = some b) (hstop : before.byteSize = a.stop)
    (hstart : a.stop + mark.utf8Size = b.start) : SeparatedAt t (braces t) mark i j := by
  refine ⟨a, b, ha, hb, (separates_iff hmark).2 ⟨[], [], Text.blank_nil, Text.blank_nil, ?_⟩⟩
  exact Text.slice?_eq_some_iff.2 ⟨before, after, ht, hstop, by simp [hstop, hstart]⟩

end Lists

/-- For each span and each mark there is at most one span that the mark separates from it, and that
one is listed later. The branches that are linked are one for each pair of spans that a question
mark separates, in the order of their conditions, with the span that a colon separates from the part
for the other part, and no span is the same part of two branches. -/
theorem link_follows_separation (t : Text) :
    (∀ mark, IsMark mark → ∀ i j, SeparatedAt t (SpanSet.braces t) mark i j →
      i < j ∧ ∀ k, SeparatedAt t (SpanSet.braces t) mark i k → k = j) ∧
    ∃ branches, link t (SpanSet.braces t) = .ok branches ∧
      branches.Pairwise (fun a b => a.condition < b.condition) ∧
      (∀ i j, SeparatedAt t (SpanSet.braces t) '?' i j →
        ∃! branch, branch ∈ branches ∧ branch.condition = i ∧ branch.ifTrue = j) ∧
      (∀ branch ∈ branches, branch.Follows t (SpanSet.braces t)) ∧
      branches.Pairwise (fun a b => a.ifTrue ≠ b.ifTrue ∧
        ∀ k, a.ifFalse = some k → b.ifFalse ≠ some k) := by
  obtain ⟨branches, hlink, hordered, hmem⟩ := exists_link_follows t
  refine ⟨fun mark hmark i j h => ⟨h.lt hmark, fun k hk => hk.right_unique hmark h⟩, branches,
    hlink, hordered, fun i j h => ?_, fun branch => (hmem branch).1, ?_⟩
  · obtain ⟨ifFalse, hfollows⟩ := exists_follows h
    refine ⟨_, ⟨(hmem _).2 hfollows, rfl, rfl⟩, ?_⟩
    rintro branch ⟨hbranch, hcondition, -⟩
    exact ((hmem branch).1 hbranch).eq_of_condition_eq hfollows hcondition
  · refine hordered.imp_of_mem fun {a b} ha hb hlt => ?_
    have hfirst := (hmem a).1 ha
    have hsecond := (hmem b).1 hb
    have hne : a.ifTrue ≠ b.ifTrue := by
      intro heq
      have hsame := (heq ▸ hfirst.ifTrue).left_unique isMark_question hsecond.ifTrue
      omega
    refine ⟨hne, fun k hk hk' => hne ?_⟩
    exact ((hfirst.ifFalse k).1 hk).left_unique isMark_colon ((hsecond.ifFalse k).1 hk')

end Branch

end SqlScript
