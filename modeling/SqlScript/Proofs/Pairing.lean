import SqlScript.Proofs.SpanTruth

/-!
# Spans are the pairs of matching delimiters

Two delimiters of a text match if what stands between them is balanced : it opens as often as it
closes, and no front of it closes more often than it opens (`Text.BalancedBy`). A nest without stray
delimiters has a balanced text (`Nest.Clean.balancedBy`), and every balanced text is the text of
such a nest (`Text.BalancedBy.exists_nest`). So the spans of a text are its matching pairs
(`Nest.exists_span_iff`), with no word about what is open on the way.

`SpanSet.find_pairs` adds how the pairs lie and in which order they are listed : they share no
delimiter, are nested or apart, and stop further and further to the right.
-/

namespace SqlScript

open List Nest

/-! ## Balanced texts -/

/-- No front of the text closes more than it opens, and the text closes all that it opens. -/
structure Text.BalancedBy (opening closing : Char) (t : Text) : Prop where
  front : ∀ front, front <+: t → front.count closing ≤ front.count opening
  total : t.count opening = t.count closing

variable {opening closing : Char}

namespace Nest

/-- Where every delimiter has its partner, the text is balanced. -/
theorem Clean.balancedBy {N : Nest} (h : N.Clean opening closing) (hne : opening ≠ closing) :
    (N.text opening closing).BalancedBy opening closing := by
  induction N with
  | nil =>
    refine ⟨fun front hfront => ?_, rfl⟩
    rw [prefix_nil.1 hfront]
    exact Nat.le_refl _
  | char c rest ih =>
    obtain ⟨ho, hc, hrest⟩ := h
    obtain ⟨hfront, htotal⟩ := ih hrest
    refine ⟨fun front hpre => ?_, ?_⟩
    · rcases prefix_cons_iff.1 hpre with rfl | ⟨later, rfl, hlater⟩
      · exact Nat.le_refl _
      · rw [count_cons_of_ne hc, count_cons_of_ne ho]
        exact hfront later hlater
    · rw [text, count_cons_of_ne hc, count_cons_of_ne ho, htotal]
  | group inner rest ihi ihr =>
    obtain ⟨hinner, hinnerTotal⟩ := ihi h.1
    obtain ⟨hrest, hrestTotal⟩ := ihr h.2
    have hopen : ∀ t : Text, (opening :: t).count opening = t.count opening + 1 ∧
        (opening :: t).count closing = t.count closing := fun t =>
      ⟨count_cons_self, count_cons_of_ne hne⟩
    have hclose : ∀ t : Text, (closing :: t).count opening = t.count opening ∧
        (closing :: t).count closing = t.count closing + 1 := fun t =>
      ⟨count_cons_of_ne hne.symm, count_cons_self⟩
    constructor
    · -- a front stops before the group, in it, or behind it
      intro front hpre
      rcases prefix_cons_iff.1 hpre with rfl | ⟨within, rfl, hwithin⟩
      · exact Nat.le_refl _
      have hopened := hopen within
      rcases prefix_or_prefix_of_prefix hwithin (prefix_append _ _) with hin | ⟨behind, rfl⟩
      · have hle := hinner within hin
        omega
      simp only [count_append] at hopened
      have hbehind := (prefix_append_right_inj _).1 hwithin
      rcases prefix_cons_iff.1 hbehind with rfl | ⟨later, rfl, hlater⟩
      · simp only [count_nil] at hopened
        omega
      · have hclosed := hclose later
        have hle := hrest later hlater
        omega
    · have hopened := hopen (inner.text opening closing ++ closing :: rest.text opening closing)
      have hclosed := hclose (rest.text opening closing)
      simp only [count_append] at hopened
      rw [text]
      omega

/-- A text that closes `d` delimiters more than it opens, and no front of it more, is made of clean
nests with `d` closing delimiters between them. -/
theorem exists_clean_glue (hne : opening ≠ closing) (t : Text) (d : Nat)
    (hfront : ∀ front, front <+: t → front.count closing ≤ front.count opening + d)
    (htotal : t.count closing = t.count opening + d) :
    ∃ (first : Nest) (later : List Nest), later.length = d ∧ first.Clean opening closing ∧
      (∀ N ∈ later, N.Clean opening closing) ∧
      (glue closing first later).text opening closing = t := by
  induction t generalizing d with
  | nil =>
    obtain rfl : d = 0 := by simpa using htotal.symm
    exact ⟨.nil, [], rfl, trivial, by simp, rfl⟩
  | cons c t ih =>
    have hcons : ∀ front, front <+: t →
        (c :: front).count closing ≤ (c :: front).count opening + d := fun front h =>
      hfront _ (cons_prefix_cons.2 ⟨rfl, h⟩)
    by_cases ho : c = opening
    · subst ho
      have hcount : ∀ x : Text, (c :: x).count c = x.count c + 1 ∧
          (c :: x).count closing = x.count closing := fun x =>
        ⟨count_cons_self, count_cons_of_ne hne⟩
      obtain ⟨first, later, hlength, hfirst, hlater, htext⟩ := ih (d + 1)
        (fun front h => by have hle := hcons front h; have hfront := hcount front; omega)
        (by have hwhole := hcount t; omega)
      obtain ⟨next, later, rfl⟩ : ∃ next rest, later = next :: rest :=
        exists_cons_of_length_eq_add_one hlength
      obtain ⟨hnext, hlater⟩ := forall_mem_cons.1 hlater
      refine ⟨.group first next, later, by simpa using hlength, ⟨hfirst, hnext⟩, hlater, ?_⟩
      rw [text_glue_group, ← htext]
      simp [glue, text]
    · by_cases hc : c = closing
      · subst hc
        have hcount : ∀ x : Text, (c :: x).count opening = x.count opening ∧
            (c :: x).count c = x.count c + 1 := fun x =>
          ⟨count_cons_of_ne hne.symm, count_cons_self⟩
        have hpos : 0 < d := by
          have hle := hcons [] nil_prefix
          have hfirst := hcount []
          simp only [count_nil] at hfirst
          omega
        obtain ⟨first, later, hlength, hfirst, hlater, htext⟩ := ih (d - 1)
          (fun front h => by have hle := hcons front h; have hfront := hcount front; omega)
          (by have hwhole := hcount t; omega)
        refine ⟨.nil, first :: later, by simp [hlength]; omega, trivial,
          forall_mem_cons.2 ⟨hfirst, hlater⟩, ?_⟩
        simp [glue, append, text, htext]
      · obtain ⟨first, later, hlength, hfirst, hlater, htext⟩ := ih d
          (fun front h => by
            have := hcons front h
            rwa [count_cons_of_ne hc, count_cons_of_ne ho] at this)
          (by rwa [count_cons_of_ne hc, count_cons_of_ne ho] at htotal)
        refine ⟨.char c first, later, hlength, ⟨ho, hc, hfirst⟩, hlater, ?_⟩
        rw [text_glue_char, htext]

end Nest

/-- A balanced text is the text of a nest in which every delimiter has its partner. -/
theorem Text.BalancedBy.exists_nest {t : Text} (h : t.BalancedBy opening closing)
    (hne : opening ≠ closing) :
    ∃ N : Nest, N.Clean opening closing ∧ N.text opening closing = t := by
  obtain ⟨first, later, hlength, hfirst, -, htext⟩ :=
    exists_clean_glue hne t 0 (fun front hfront => by simpa using h.front front hfront)
      (by simpa using h.total.symm)
  obtain rfl := length_eq_zero_iff.1 hlength
  exact ⟨first, hfirst, htext⟩

/-! ## Matching pairs -/

/-- An opening delimiter at the offset `i` and a closing one that ends at `j` match : what stands
between them is balanced. -/
def Text.Pair (opening closing : Char) (t : Text) (i j : Nat) : Prop :=
  ∃ before inside after : Text, t = before ++ opening :: (inside ++ closing :: after) ∧
    before.byteSize = i ∧ (before ++ opening :: (inside ++ [closing])).byteSize = j ∧
    inside.BalancedBy opening closing

/-- The spans of a text are its matching pairs. -/
theorem Nest.exists_span_iff (hne : opening ≠ closing) {t : Text} {i j : Nat} :
    (∃ span ∈ SpanSet.find opening closing t, span.start = i ∧ span.stop = j) ↔
      t.Pair opening closing i j := by
  constructor
  · rintro ⟨span, hspan, rfl, rfl⟩
    obtain ⟨-, _, ⟨N, hN, rfl⟩, hslice⟩ := (mem_find_iff hne).1 hspan
    obtain ⟨before, after, rfl, hstart, hstop⟩ := Text.slice?_eq_some_iff.1 hslice
    refine ⟨before, N.text opening closing, after, by simp, hstart, ?_, hN.balancedBy hne⟩
    rw [Text.byteSize_append, hstop]
  · rintro ⟨before, inside, after, rfl, rfl, rfl, hinside⟩
    obtain ⟨N, hN, rfl⟩ := hinside.exists_nest hne
    refine ⟨⟨_, _, true⟩, (mem_find_iff hne).2 ⟨rfl, _, ⟨N, hN, rfl⟩, ?_⟩, rfl, rfl⟩
    exact Text.slice?_eq_some_iff.2 ⟨before, after, by simp, rfl, by simp⟩

namespace SpanSet

/-- The spans of a text stop one after another. -/
theorem pairwise_stop_find (opening closing : Char) (t : Text) :
    (find opening closing t).Pairwise fun a b => a.stop < b.stop := by
  rw [find_eq_spans]
  exact pairwise_stop _ _

/-- Two spans of a text share no delimiter, and are nested or apart. -/
theorem pairwise_apart_find (opening closing : Char) (t : Text) :
    (find opening closing t).Pairwise fun a b =>
      a.start ≠ b.start ∧ a.stop ≠ b.stop ∧ a.Nested b := by
  rw [find_eq_spans]
  refine (pairwise_spans opening closing _ 0).imp_of_mem fun {a b} ha hb hnested => ?_
  obtain ⟨-, hlta, -⟩ := bounds_of_mem_spans ha
  obtain ⟨-, hltb, -⟩ := bounds_of_mem_spans hb
  have hnested' := hnested
  simp only [Span.Nested, Span.Around, Span.Beside, Span.inner] at hnested'
  exact ⟨by omega, by omega, hnested⟩

/-- The spans that are found in a text are exactly its matching pairs of delimiters. All are valid;
no two of them start or stop together; any two are nested or apart; and they are listed as they
stop, so that a span comes before each other one that it lies in. -/
theorem find_pairs (hne : opening ≠ closing) (t : Text) :
    (∀ i j, (∃ span ∈ find opening closing t, span.start = i ∧ span.stop = j) ↔
      t.Pair opening closing i j) ∧
    (∀ span ∈ find opening closing t, span.valid = true) ∧
    ((find opening closing t).Pairwise fun a b =>
      a.start ≠ b.start ∧ a.stop ≠ b.stop ∧ a.Nested b) ∧
    ((find opening closing t).Pairwise fun a b => a.stop < b.stop) ∧
    ∀ (m n : Nat) (a b : Span), (find opening closing t)[m]? = some a →
      (find opening closing t)[n]? = some b → a ≠ b → a.Within ⟨b.start, b.stop⟩ → m < n := by
  refine ⟨fun i j => Nest.exists_span_iff hne,
    fun span hspan => ((Nest.mem_find_iff hne).1 hspan).1,
    pairwise_apart_find opening closing t, pairwise_stop_find opening closing t, ?_⟩
  intro m n a b ha hb hab hwithin
  obtain ⟨hm, rfl⟩ := List.getElem?_eq_some_iff.1 ha
  obtain ⟨hn, rfl⟩ := List.getElem?_eq_some_iff.1 hb
  rcases Nat.lt_trichotomy m n with hlt | rfl | hgt
  · exact hlt
  · exact absurd rfl hab
  · have hstop := List.pairwise_iff_getElem.1 (pairwise_stop_find opening closing t) n m hn hm hgt
    exact absurd hwithin.2 (by simpa using hstop)

/-- Between two stray delimiters, a group in a group and a group beside them. -/
theorem find_pairs_strays : '(' ≠ ')' ∧
    (∀ i j, (∃ span ∈ find '(' ')' ")(a(b))(c)(".toList, span.start = i ∧ span.stop = j) ↔
      Text.Pair '(' ')' ")(a(b))(c)(".toList i j) ∧
    find '(' ')' ")(a(b))(c)(".toList = [⟨3, 6, true⟩, ⟨1, 7, true⟩, ⟨7, 10, true⟩] :=
  ⟨by decide, (find_pairs (by decide) ")(a(b))(c)(".toList).1, by decide⟩

end SpanSet

end SqlScript
