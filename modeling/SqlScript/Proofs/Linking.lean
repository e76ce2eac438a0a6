import SqlScript.Proofs.Cutting
import SqlScript.Proofs.GroupFold
import SqlScript.Template.Branch

/-!
# Linking spans into branches

A branch is linked by what stands behind its spans : the place after a mark is found
(`exists_placeAfter?`), and the span that starts there is the part (`exists_firstSeparated?`). A
branch all of whose parts are in the text is resolved by one splice (`resolveIn_of_valid`).
-/

namespace SqlScript

open List Text

/-! ## Values of conditions -/

/-- Whether the condition holds. -/
def Condition.holds (grammar : Grammar) (t : Text) : Bool :=
  match eval grammar t with
  | .ok value => value
  | .error _ => false

theorem Condition.eval_eq_ok_holds (grammar : Grammar) (t : Text) :
    eval grammar t = .ok (holds grammar t) := by
  obtain ⟨value, hvalue⟩ := exists_eval_eq_ok grammar t
  rw [holds, hvalue]

namespace Branch

/-! ## The place after a mark -/

/-- A place after a mark is separated from the span by blanks and the mark. -/
theorem exists_placeAfter? (mark : Char) (span : Span) {a : Text} (h : a.byteSize = span.stop)
    (rest : Text) :
    ∃ found, placeAfter? (a ++ rest) mark span = .ok found ∧ ∀ place, found = some place →
      ∃ p q tail : Text, rest = p ++ mark :: q ++ tail ∧ p.Blank ∧ q.Blank ∧
        place = span.stop + byteSize (p ++ mark :: q) := by
  have hfrom := sliceFrom_append (b := rest) h
  have hsplit : rest.takeWhile isBlank ++ rest.dropWhile isBlank = rest :=
    takeWhile_append_dropWhile
  cases hdrop : rest.dropWhile isBlank with
  | nil =>
    refine ⟨none, ?_, by simp⟩
    simp only [placeAfter?, hfrom, ok_bind, hdrop]
    rfl
  | cons c body =>
    by_cases hc : c = mark
    · subst hc
      refine ⟨some (span.stop + byteSize (rest.takeWhile isBlank) + c.utf8Size +
        byteSize (body.takeWhile isBlank)), ?_, ?_⟩
      · simp only [placeAfter?, hfrom, ok_bind, hdrop, beq_self_eq_true, if_true]
        rfl
      · rintro place ⟨⟩
        refine ⟨rest.takeWhile isBlank, body.takeWhile isBlank, body.dropWhile isBlank, ?_,
          blank_takeWhile rest, blank_takeWhile body, ?_⟩
        · rw [append_assoc, cons_append, takeWhile_append_dropWhile, ← hdrop, hsplit]
        · simp [Nat.add_assoc]
    · refine ⟨none, ?_, by simp⟩
      simp only [placeAfter?, hfrom, ok_bind, hdrop, beq_eq_false_iff_ne.2 hc,
        Bool.false_eq_true, if_false]
      rfl

/-- The mark after a span, with blanks around it. -/
theorem placeAfter?_append {mark c : Char} (hmark : isBlank mark = false)
    (hc : isBlank c = false) {span : Span} {a p q : Text} (h : a.byteSize = span.stop)
    (hp : p.Blank) (hq : q.Blank) (rest : Text) :
    placeAfter? (a ++ (p ++ mark :: (q ++ c :: rest))) mark span =
      .ok (some (span.stop + byteSize (p ++ mark :: q))) := by
  have htake : ∀ {s : Text} {d : Char} (s' : Text), s.Blank → isBlank d = false →
      (s ++ d :: s').takeWhile isBlank = s := fun s' hs hd => by
    rw [takeWhile_append_of_pos hs, takeWhile_cons, hd]
    simp
  have hdrop : (p ++ mark :: (q ++ c :: rest)).dropWhile isBlank = mark :: (q ++ c :: rest) := by
    rw [dropWhile_append_of_pos hp, dropWhile_cons, hmark]
    simp
  simp only [placeAfter?, sliceFrom_append h, ok_bind, hdrop, htake _ hp hmark,
    htake _ hq hc, beq_self_eq_true, if_true]
  simp only [byteSize_append, byteSize_cons, Nat.add_assoc]
  rfl

/-! ## Separated spans -/

/-- The spans stand one after the other in the text, with the mark and blanks between them. -/
def Separated (t : Text) (mark : Char) (a b : Span) : Prop :=
  ∃ p q : Text, p.Blank ∧ q.Blank ∧ t.slice? a.stop b.start = some (p ++ mark :: q)

theorem Separated.le {t : Text} {mark : Char} {a b : Span} (h : Separated t mark a b) :
    a.stop ≤ b.start := by
  obtain ⟨p, q, -, -, hgap⟩ := h
  have hsize := add_byteSize_of_slice? hgap
  omega

/-- Whether the second span starts behind the first one, and the text between them trims to the
mark. -/
def separates (t : Text) (mark : Char) (a b : Span) : Bool :=
  match t.slice? a.stop b.start with
  | some gap => gap.trim == [mark]
  | none => false

/-- The marks that separate the parts of a branch. -/
def IsMark (mark : Char) : Prop :=
  mark = '?' ∨ mark = ':'

theorem IsMark.spec {mark : Char} (h : IsMark mark) :
    isBlank mark = false ∧ mark ≠ '\x7b' ∧ mark ≠ '\x7d' := by
  rcases h with rfl | rfl <;> decide

theorem separates_iff (hmark : IsMark mark) : separates t mark a b ↔ Separated t mark a b := by
  unfold separates Separated
  cases hgap : t.slice? a.stop b.start with
  | none => simp
  | some gap =>
    simp only [beq_iff_eq, Option.some.injEq]
    constructor
    · intro htrim
      obtain ⟨p, q, hp, hq, hsplit⟩ := exists_append_trim gap
      rw [htrim] at hsplit
      exact ⟨p, q, hp, hq, hsplit⟩
    · rintro ⟨p, q, hp, hq, rfl⟩
      exact trim_append hp (solid_singleton hmark.spec.1) hq

variable {t : Text} {mark : Char} {span : Span} {spans : SpanSet} {later : List (Span × Nat)}

/-- The entries are spans of the set with their indices, and they have their braces. -/
def Numbered (t : Text) (spans : SpanSet) (later : List (Span × Nat)) : Prop :=
  ∀ entry ∈ later, spans[entry.2]? = some entry.1 ∧
    ∃ body : Text, t.slice? entry.1.start entry.1.stop = some ('\x7b' :: (body ++ ['\x7d']))

theorem Numbered.isPlace_stop (h : Numbered t spans later) {entry : Span × Nat}
    (hmem : entry ∈ later) : t.IsPlace entry.1.stop := by
  obtain ⟨-, body, hbody⟩ := h entry hmem
  exact (isPlace_of_slice? hbody).2

/-- The place after a mark is where the spans start that the mark separates from the given one. -/
theorem exists_placeAfter?_iff (hmark : IsMark mark) (hplace : t.IsPlace span.stop) :
    ∃ found, placeAfter? t mark span = .ok found ∧ ∀ (other : Span) (body : Text),
      t.slice? other.start other.stop = some ('\x7b' :: body) →
        (found = some other.start ↔ Separated t mark span other) := by
  obtain ⟨x, y, rfl, hx⟩ := isPlace_iff.1 hplace
  obtain ⟨found, hfound, hgap⟩ := exists_placeAfter? mark span hx y
  refine ⟨found, hfound, fun other body hbody => ⟨fun h => ?_, ?_⟩⟩
  · obtain ⟨p, q, tail, rfl, hp, hq, hsum⟩ := hgap _ h
    refine ⟨p, q, hp, hq, ?_⟩
    rw [hsum, ← hx]
    exact slice?_append x (p ++ mark :: q) tail
  · rintro ⟨p, q, hp, hq, hslice⟩
    obtain ⟨x', tail, htext, hx', -⟩ := slice?_eq_some_iff.1 (slice?_append_slice? hslice hbody)
    obtain ⟨rfl, rfl⟩ := append_inj_of_byteSize_eq htext (hx.trans hx'.symm)
    have hat := placeAfter?_append hmark.spec.1 (by decide : isBlank '\x7b' = false) hx hp hq
      (body ++ tail)
    rw [add_byteSize_of_slice? hslice] at hat
    refine Except.ok.inj (hfound.symm.trans ?_)
    simpa using hat

theorem firstSeparated?_nil (hmark : IsMark mark) (hplace : t.IsPlace span.stop) :
    firstSeparated? t mark span [] = .ok none := by
  obtain ⟨found, hfound, -⟩ := exists_placeAfter?_iff hmark hplace
  simp only [firstSeparated?, hfound, ok_bind]
  cases found <;> rfl

/-- The spans are looked at in order. -/
theorem firstSeparated?_cons (hmark : IsMark mark) (hplace : t.IsPlace span.stop)
    {entry : Span × Nat} {body : Text}
    (hbody : t.slice? entry.1.start entry.1.stop = some ('\x7b' :: body)) :
    firstSeparated? t mark span (entry :: later) =
      if separates t mark span entry.1 then .ok (some (entry, later))
      else firstSeparated? t mark span later := by
  obtain ⟨found, hfound, hiff⟩ := exists_placeAfter?_iff hmark hplace
  have hsame : separates t mark span entry.1 = (found == some entry.1.start) := by
    rw [Bool.eq_iff_iff, separates_iff hmark, beq_iff_eq, hiff _ _ hbody]
  simp only [hsame, firstSeparated?, hfound, ok_bind]
  cases found with
  | none => rfl
  | some place =>
    by_cases hstart : entry.1.start = place
    · subst hstart
      simp
      rfl
    · simp [hstart, Ne.symm hstart]

/-- What is found is separated by the mark and has the spans after it for a rest; if nothing is
found, no span is separated. -/
theorem exists_firstSeparated? (hmark : IsMark mark) (hplace : t.IsPlace span.stop)
    (h : Numbered t spans later) : ∃ found, firstSeparated? t mark span later = .ok found ∧
      (found = none → ∀ entry ∈ later, ¬ Separated t mark span entry.1) ∧
      ∀ next rest, found = some (next, rest) →
        Separated t mark span next.1 ∧ ∃ skipped, later = skipped ++ next :: rest := by
  induction later with
  | nil => exact ⟨none, firstSeparated?_nil hmark hplace, by simp, by simp⟩
  | cons entry later ih =>
    obtain ⟨⟨-, body, hbody⟩, hlater⟩ := forall_mem_cons.1 h
    rw [firstSeparated?_cons hmark hplace hbody]
    cases hsep : separates t mark span entry.1 with
    | true =>
      refine ⟨some (entry, later), rfl, by simp, ?_⟩
      rintro _ _ ⟨⟩
      exact ⟨(separates_iff hmark).1 hsep, [], rfl⟩
    | false =>
      obtain ⟨found, hfound, hnone, hsome⟩ := ih hlater
      refine ⟨found, hfound, fun hf => forall_mem_cons.2 ⟨fun hgap => ?_, hnone hf⟩,
        fun next rest hf => ?_⟩
      · rw [(separates_iff hmark).2 hgap] at hsep
        cases hsep
      · obtain ⟨hgap, skipped, rfl⟩ := hsome next rest hf
        exact ⟨hgap, entry :: skipped, rfl⟩

theorem linkFrom_cons {index thenIndex : Nat} {thenSpan : Span} {rest : List (Span × Nat)}
    {found : Option ((Span × Nat) × List (Span × Nat))}
    (hthen : firstSeparated? t '?' span later = .ok (some ((thenSpan, thenIndex), rest)))
    (helse : firstSeparated? t ':' thenSpan rest = .ok found) :
    linkFrom t ((span, index) :: later) =
      (⟨index, thenIndex, found.map fun next => next.1.2⟩ :: ·) <$> linkFrom t later := by
  simp only [linkFrom, hthen, helse, ok_bind]
  cases linkFrom t later <;> rfl

/-! ## The step at a branch -/

/-- The step at a branch all of whose parts are in the text. -/
theorem resolveIn_of_valid {grammar : Grammar} {branch : Branch} {body : Text}
    {spans : SpanSet} {last : Span} (condition ifTrue : Span)
    (hcondition : spans.get branch.condition = .ok condition)
    (htrue : spans.get branch.ifTrue = .ok ifTrue) (hlast : spans.get branch.last = .ok last)
    (hvalid : condition.valid ∧ ifTrue.valid ∧ last.valid)
    (hbody : t.slice condition.inner.start condition.inner.stop = .ok body) :
    resolveIn grammar (t, spans) branch = spans.splice t ⟨condition.start, last.stop⟩
      (if Condition.holds grammar body then ifTrue.inner
        else if branch.ifFalse.isSome then last.inner else ⟨condition.start, condition.start⟩) := by
  obtain ⟨hvalid, hvalid', hvalid''⟩ := hvalid
  simp only [resolveIn, isValid, extent, hcondition, htrue, hlast, hvalid, hvalid', hvalid'', hbody,
    ok_bind, Condition.eval_eq_ok_holds]
  cases Condition.holds grammar body with
  | true => simp [htrue]
  | false =>
    cases hfalse : branch.ifFalse with
    | none => simp
    | some index =>
      have hindex : spans.get index = .ok last := by
        rw [← hlast, Branch.last, hfalse, Option.getD_some]
      simp [hindex]

end Branch

end SqlScript
