import SqlScript.Proofs.Neighbours

/-!
# Template trees

A template is a list of nodes : texts without braces, and branches with a condition, a template for
the case that it holds and perhaps one for the case that it does not. `Template.print` writes a
template with braces, and `Template.value` is its meaning, by recursion on the tree.

A branch without an else part takes what follows for one if nothing but a colon stands between.
`Template.Apart` says that no text node misleads a branch this way. `Template.lead` is what stands
before the first branch; it trims to a colon only if one of its texts does
(`Text.exists_mem_trim_eq`).

Branches are linked once, on the text as it was written. `Links` says what the branches of a
template are : each branch of the tree with the indices of its spans, in the order in which the
conditions close, and between them stray branches, whose condition is really a part of a branch
before (`exists_link_print`). A stray branch arises where nothing but a question mark stands between
a branch and the next one; it is never resolved, since the part is gone by then.
-/

namespace SqlScript

open List Nest Text

/-! ## Trees -/

/-- A text without braces. -/
structure Plain where
  text : Text
  opening : '\x7b' ∉ text
  closing : '\x7d' ∉ text

/-- A list of nodes. -/
inductive Template where
  | nil
  | text (s : Plain) (rest : Template)
  | ifThen (condition : Plain) (body : Template) (rest : Template)
  | ifThenElse (condition : Plain) (body other : Template) (rest : Template)

namespace Template

/-- The text of a template. -/
def print : Template → Text
  | nil => []
  | text s rest => s.text ++ rest.print
  | ifThen condition body rest =>
    '\x7b' :: (condition.text ++ '\x7d' :: '?' :: '\x7b' :: (body.print ++ '\x7d' :: rest.print))
  | ifThenElse condition body other rest =>
    '\x7b' :: (condition.text ++ '\x7d' :: '?' :: '\x7b' ::
      (body.print ++ '\x7d' :: ':' :: '\x7b' :: (other.print ++ '\x7d' :: rest.print)))

/-- The meaning of a template : texts stand for themselves, and a branch for the part that its
condition chooses. -/
def value (grammar : Grammar) : Template → Text
  | nil => []
  | text s rest => s.text ++ rest.value grammar
  | ifThen condition body rest =>
    (if Condition.holds grammar condition.text then body.value grammar else []) ++
      rest.value grammar
  | ifThenElse condition body other rest =>
    (if Condition.holds grammar condition.text then body.value grammar
      else other.value grammar) ++ rest.value grammar

/-- The braces of a printed template. -/
def nest : Template → Nest
  | nil => .nil
  | text s rest => (ofChars s.text).append rest.nest
  | ifThen condition body rest =>
    .group (ofChars condition.text) (.char '?' (.group body.nest rest.nest))
  | ifThenElse condition body other rest =>
    .group (ofChars condition.text) (.char '?' (.group body.nest
      (.char ':' (.group other.nest rest.nest))))

/-- The text nodes before the first branch. -/
def leads : Template → List Text
  | text s rest => s.text :: rest.leads
  | _ => []

/-- Whether the list has a branch. -/
def hasBranch : Template → Bool
  | nil => false
  | text _ rest => rest.hasBranch
  | _ => true

/-- No text node that trims to a colon stands between a branch without an else part and the next
branch of the same list. -/
def Apart : Template → Prop
  | nil => True
  | text _ rest => rest.Apart
  | ifThen _ body rest =>
    body.Apart ∧ rest.Apart ∧ (rest.hasBranch = true → ∀ s ∈ rest.leads, s.trim ≠ [':'])
  | ifThenElse _ body other rest => body.Apart ∧ other.Apart ∧ rest.Apart

instance decidableApart : (T : Template) → Decidable T.Apart
  | nil => .isTrue trivial
  | text _ rest => decidableApart rest
  | ifThen _ body rest =>
    have := decidableApart body
    have := decidableApart rest
    inferInstanceAs (Decidable (_ ∧ _ ∧ _))
  | ifThenElse _ body other rest =>
    have := decidableApart body
    have := decidableApart other
    have := decidableApart rest
    inferInstanceAs (Decidable (_ ∧ _ ∧ _))

/-! ## Printed templates as nests -/

@[simp] theorem text_nest (T : Template) : T.nest.text '\x7b' '\x7d' = T.print := by
  induction T with
  | nil => rfl
  | text s rest ih => simp [nest, print, ih]
  | ifThen condition body rest ihb ihr => simp [nest, print, Nest.text, ihb, ihr]
  | ifThenElse condition body other rest ihb iho ihr =>
    simp [nest, print, Nest.text, ihb, iho, ihr]

theorem clean_nest (T : Template) : T.nest.Clean '\x7b' '\x7d' := by
  induction T with
  | nil => trivial
  | text s rest ih => exact clean_append (clean_ofChars s.opening s.closing) ih
  | ifThen condition body rest ihb ihr =>
    exact ⟨clean_ofChars condition.opening condition.closing, by decide, by decide, ihb, ihr⟩
  | ifThenElse condition body other rest ihb iho ihr =>
    exact ⟨clean_ofChars condition.opening condition.closing, by decide, by decide, ihb,
      by decide, by decide, iho, ihr⟩

/-! ## Spans of printed templates -/

@[simp] theorem utf8Size_openBrace : '\x7b'.utf8Size = 1 :=
  rfl

@[simp] theorem utf8Size_closeBrace : '\x7d'.utf8Size = 1 :=
  rfl

@[simp] theorem utf8Size_question : '?'.utf8Size = 1 :=
  rfl

@[simp] theorem utf8Size_colon : ':'.utf8Size = 1 :=
  rfl

/-- The spans of a template that is printed at `place`. -/
def spans (T : Template) (place : Nat) : SpanSet :=
  T.nest.spans '\x7b' '\x7d' place

/-- The number of spans. -/
def count (T : Template) : Nat :=
  (T.spans 0).length

@[simp] theorem length_spans (T : Template) (place : Nat) : (T.spans place).length = T.count := by
  simp [spans, count]

theorem find_print (T : Template) : SpanSet.find '\x7b' '\x7d' T.print = T.spans 0 := by
  rw [← T.text_nest]
  exact find_text T.clean_nest (by decide)

@[simp] theorem spans_nil (place : Nat) : nil.spans place = [] :=
  rfl

@[simp] theorem spans_text (s : Plain) (rest : Template) (place : Nat) :
    (text s rest).spans place = rest.spans (place + s.text.byteSize) := by
  simp [spans, nest, spans_append]

/-- The text of a condition and the part for the case that it holds. -/
def choice (condition : Plain) (body : Template) : Text :=
  '\x7b' :: (condition.text ++ '\x7d' :: '?' :: '\x7b' :: (body.print ++ ['\x7d']))

/-- The text of the part for the case that the condition does not hold. -/
def alternative (other : Template) : Text :=
  ':' :: '\x7b' :: (other.print ++ ['\x7d'])

theorem print_ifThen (condition : Plain) (body rest : Template) :
    (ifThen condition body rest).print = choice condition body ++ rest.print := by
  simp [print, choice]

theorem print_ifThenElse (condition : Plain) (body other rest : Template) :
    (ifThenElse condition body other rest).print =
      choice condition body ++ (alternative other ++ rest.print) := by
  simp [print, choice, alternative]

@[simp] theorem byteSize_choice (condition : Plain) (body : Template) :
    (choice condition body).byteSize = condition.text.byteSize + body.print.byteSize + 5 := by
  simp only [choice, byteSize_cons, byteSize_append, byteSize_nil,
    utf8Size_openBrace, utf8Size_closeBrace, utf8Size_question]
  omega

@[simp] theorem byteSize_alternative (other : Template) :
    (alternative other).byteSize = other.print.byteSize + 3 := by
  simp only [alternative, byteSize_cons, byteSize_append, byteSize_nil,
    utf8Size_openBrace, utf8Size_closeBrace, utf8Size_colon]
  omega

/-- What stands before the part for the case that the condition holds. -/
def conditionText (condition : Plain) : Text :=
  '\x7b' :: (condition.text ++ '\x7d' :: '?' :: ['\x7b'])

theorem choice_eq (condition : Plain) (body : Template) :
    choice condition body = conditionText condition ++ (body.print ++ ['\x7d']) := by
  simp [choice, conditionText]

@[simp] theorem byteSize_conditionText (condition : Plain) :
    (conditionText condition).byteSize = condition.text.byteSize + 4 := by
  simp only [conditionText, byteSize_cons, byteSize_append, byteSize_nil,
    utf8Size_openBrace, utf8Size_closeBrace, utf8Size_question]
  omega

theorem spans_ifThen (condition : Plain) (body rest : Template) (place : Nat) :
    (ifThen condition body rest).spans place =
      ⟨place, place + condition.text.byteSize + 2, true⟩ ::
        (body.spans (place + condition.text.byteSize + 4) ++
          ⟨place + condition.text.byteSize + 3,
            place + condition.text.byteSize + body.print.byteSize + 5, true⟩ ::
          rest.spans (place + condition.text.byteSize + body.print.byteSize + 5)) := by
  have hcondition : place + 1 + condition.text.byteSize + 1 =
      place + condition.text.byteSize + 2 := by omega
  have hbody : place + condition.text.byteSize + 2 + 1 + 1 + body.print.byteSize + 1 =
      place + condition.text.byteSize + body.print.byteSize + 5 := by omega
  simp only [spans, nest, Nest.spans, Nest.spans_ofChars, Nest.stopAfter, Nest.text_ofChars,
    text_nest, utf8Size_openBrace, utf8Size_closeBrace, utf8Size_question, nil_append]
  rw [hcondition, hbody]

theorem spans_ifThenElse (condition : Plain) (body other rest : Template) (place : Nat) :
    (ifThenElse condition body other rest).spans place =
      ⟨place, place + condition.text.byteSize + 2, true⟩ ::
        (body.spans (place + condition.text.byteSize + 4) ++
          ⟨place + condition.text.byteSize + 3,
            place + condition.text.byteSize + body.print.byteSize + 5, true⟩ ::
          (other.spans (place + condition.text.byteSize + body.print.byteSize + 7) ++
            ⟨place + condition.text.byteSize + body.print.byteSize + 6,
              place + condition.text.byteSize + body.print.byteSize + other.print.byteSize + 8,
              true⟩ ::
            rest.spans (place + condition.text.byteSize + body.print.byteSize +
              other.print.byteSize + 8))) := by
  have hcondition : place + 1 + condition.text.byteSize + 1 =
      place + condition.text.byteSize + 2 := by omega
  have hbody : place + condition.text.byteSize + 2 + 1 + 1 + body.print.byteSize + 1 =
      place + condition.text.byteSize + body.print.byteSize + 5 := by omega
  have hother : place + condition.text.byteSize + body.print.byteSize + 5 + 1 + 1 +
      other.print.byteSize + 1 =
      place + condition.text.byteSize + body.print.byteSize + other.print.byteSize + 8 := by omega
  simp only [spans, nest, Nest.spans, Nest.spans_ofChars, Nest.stopAfter, Nest.text_ofChars,
    text_nest, utf8Size_openBrace, utf8Size_closeBrace, utf8Size_question, utf8Size_colon,
    nil_append]
  rw [hcondition, hbody, hother]

@[simp] theorem count_nil : nil.count = 0 :=
  rfl

@[simp] theorem count_text (s : Plain) (rest : Template) : (text s rest).count = rest.count := by
  rw [count, spans_text, length_spans]

@[simp] theorem count_ifThen (condition : Plain) (body rest : Template) :
    (ifThen condition body rest).count = body.count + rest.count + 2 := by
  rw [count, spans_ifThen]
  simp only [length_cons, length_append, length_spans]
  omega

@[simp] theorem count_ifThenElse (condition : Plain) (body other rest : Template) :
    (ifThenElse condition body other rest).count = body.count + other.count + rest.count + 3 := by
  rw [count, spans_ifThenElse]
  simp only [length_cons, length_append, length_spans]
  omega

theorem bounds_of_mem_spans {T : Template} {place : Nat} {span : Span} (h : span ∈ T.spans place) :
    place ≤ span.start ∧ span.start < span.stop ∧ span.stop ≤ place + T.print.byteSize := by
  rw [← T.text_nest]
  exact Nest.bounds_of_mem_spans h

/-! ## What stands before the first branch -/

/-- The text before the first branch. -/
def lead (T : Template) : Text :=
  T.leads.flatten

theorem not_mem_lead (T : Template) : '\x7b' ∉ T.lead := by
  induction T with
  | text s rest ih =>
    rw [lead, leads, flatten_cons, mem_append]
    exact fun h => h.elim s.opening ih
  | _ => simp [lead, leads]

/-- After the lead stands the brace of a branch, if anything. -/
theorem print_eq_lead_append (T : Template) : ∃ tail, T.print = T.lead ++ tail ∧
    (tail = [] ∨ T.hasBranch ∧ ∃ x, tail = '\x7b' :: x) := by
  induction T with
  | nil => exact ⟨[], rfl, .inl rfl⟩
  | text s rest ih =>
    obtain ⟨tail, hprint, htail⟩ := ih
    refine ⟨tail, ?_, htail⟩
    rw [print, hprint]
    simp [lead, leads]
  | ifThen condition body rest _ _ => exact ⟨_, rfl, .inr ⟨rfl, _, rfl⟩⟩
  | ifThenElse condition body other rest _ _ _ => exact ⟨_, rfl, .inr ⟨rfl, _, rfl⟩⟩

end Template

/-- If texts put together trim to one character, then one of them does. -/
theorem Text.exists_mem_trim_eq {parts : List Text} {m : Char} (hm : isBlank m = false)
    {p q : Text} (hp : p.Blank) (hq : q.Blank) (h : parts.flatten = p ++ m :: q) :
    ∃ s ∈ parts, s.trim = [m] := by
  induction parts generalizing p with
  | nil => simp at h
  | cons s parts ih =>
    rw [flatten_cons] at h
    rcases append_eq_append_iff.1 h with ⟨p', rfl, hrest⟩ | ⟨s', rfl, hrest⟩
    · obtain ⟨s', hmem, htrim⟩ := ih (fun c hc => hp c (by simp [hc])) hrest
      exact ⟨s', mem_cons_of_mem _ hmem, htrim⟩
    · cases s' with
      | nil =>
        obtain ⟨s', hmem, htrim⟩ := ih blank_nil hrest.symm
        exact ⟨s', mem_cons_of_mem _ hmem, htrim⟩
      | cons c s' =>
        cases hrest
        refine ⟨_, mem_cons_self, ?_⟩
        exact trim_append hp (solid_singleton hm) fun c hc => hq c (by simp [hc])

/-! ## Links of a template -/

namespace Template

open Branch SpanSet

/-- The branches of a template whose spans are numbered from `first` on, in the order in which they
are resolved. -/
inductive Links (total : Nat) : Template → Nat → List Branch → Prop where
  | nil {first : Nat} : Links total nil first []
  | text {s : Plain} {rest : Template} {first : Nat} {branches : List Branch} :
    Links total rest first branches → Links total (text s rest) first branches
  | ifThen {condition : Plain} {body rest : Template} {first : Nat}
    {inner stray after : List Branch} :
    Links total body (first + 1) inner →
    (∀ branch ∈ stray, branch.StrayAt total (first + 1 + body.count)) →
    Links total rest (first + 1 + body.count + 1) after →
    Links total (ifThen condition body rest) first
      (⟨first, first + 1 + body.count, none⟩ :: (inner ++ (stray ++ after)))
  | ifThenElse {condition : Plain} {body other rest : Template} {first : Nat}
    {inner stray inner' stray' after : List Branch} :
    Links total body (first + 1) inner →
    (∀ branch ∈ stray, branch.StrayAt total (first + 1 + body.count)) →
    Links total other (first + 1 + body.count + 1) inner' →
    (∀ branch ∈ stray', branch.StrayAt total (first + 1 + body.count + 1 + other.count)) →
    Links total rest (first + 1 + body.count + 1 + other.count + 1) after →
    Links total (ifThenElse condition body other rest) first
      (⟨first, first + 1 + body.count, some (first + 1 + body.count + 1 + other.count)⟩ ::
        (inner ++ (stray ++ (inner' ++ (stray' ++ after)))))

variable {t before after : Text} {first place hi : Nat} {later : SpanSet}
  {T body other rest : Template} {branches : List Branch}

/-- No span follows a span behind a mark if the lead of what stands there does not trim to the
mark. -/
theorem not_separatedAt (T : Template) {mark : Char} (hmark : IsMark mark)
    (hlead : T.hasBranch → ∀ s ∈ T.leads, s.trim ≠ [mark]) (ht : t = before ++ (T.print ++ after))
    (hafter : after = [] ∨ ∃ x, after = '\x7d' :: x) {a : Span} {i : Nat}
    (ha : (braces t)[i]? = some a) (hstop : before.byteSize = a.stop) (j : Nat) :
    ¬ SeparatedAt t (braces t) mark i j := by
  rintro ⟨a', b, ha', hb, hsep⟩
  cases ha.symm.trans ha'
  obtain ⟨p, q, hp, hq, hgap⟩ := (separates_iff hmark).1 hsep
  obtain ⟨gap, hgap', hopening, hclosing⟩ := Separated.joined hmark ⟨p, q, hp, hq, hgap⟩
  cases hgap.symm.trans hgap'
  obtain ⟨-, body, hbody⟩ := exists_braces (mem_of_getElem? hb)
  obtain ⟨x, y, hxy, hx, -⟩ := slice?_eq_some_iff.1 (slice?_append_slice? hgap hbody)
  obtain ⟨rfl, htext⟩ := append_inj_of_byteSize_eq (ht.symm.trans hxy) (hstop.trans hx.symm)
  obtain ⟨tail, hprint, hbranch⟩ := T.print_eq_lead_append
  have hhead : ∀ c x, tail ++ after = c :: x → c = '\x7d' ∨ c = '\x7b' ∧ T.hasBranch := by
    intro c x hx
    rcases hbranch with rfl | ⟨hbranch, y, rfl⟩
    · rcases hafter with rfl | ⟨y, rfl⟩
      · cases hx
      · exact .inl (List.cons.inj hx).1.symm
    · exact .inr ⟨(List.cons.inj hx).1.symm, hbranch⟩
  rw [hprint, append_assoc, append_assoc, cons_append] at htext
  -- both the lead and the gap reach up to the first opening brace
  obtain ⟨hsame, htail⟩ : T.lead = p ++ mark :: q ∧
      tail ++ after = '\x7b' :: (body ++ ['\x7d'] ++ y) := by
    rcases append_eq_append_iff.1 htext with ⟨x, hx, hrest⟩ | ⟨x, hx, hrest⟩
    · cases x with
      | nil => exact ⟨by simpa using hx.symm, hrest⟩
      | cons c x =>
        rcases hhead c _ hrest with rfl | ⟨rfl, -⟩ <;> simp_all
    · cases x with
      | nil => exact ⟨by simpa using hx, hrest.symm⟩
      | cons c x =>
        obtain ⟨rfl, -⟩ := List.cons.inj hrest
        exact absurd (by simp [hx]) T.not_mem_lead
  obtain ⟨s, hs, htrim⟩ := exists_mem_trim_eq hmark.spec.1 hp hq hsame
  rcases hhead _ _ htail with hc | ⟨-, hbranch⟩
  · cases hc
  · exact hlead hbranch s hs htrim

/-- The branches with a condition among the spans of the template are its links, wherever it
stands. -/
def Linked (t : Text) (T : Template) : Prop :=
  ∀ (before after : Text) (first : Nat) (later : SpanSet) (branches : List Branch),
    t = before ++ (T.print ++ after) → (after = [] ∨ ∃ x, after = '\x7d' :: x) →
    (braces t).drop first = T.spans before.byteSize ++ later →
    Lists t first (first + T.count) branches → Links (braces t).length T first branches

theorem drop_count (h : (braces t).drop first = T.spans place ++ later) :
    (braces t).drop (first + T.count) = later := by
  rw [← drop_drop, h, ← T.length_spans place, drop_left]

/-- The branches of a template in braces, and those whose condition is the template itself. -/
theorem Linked.braced (h : Linked t T) (ht : t = before ++ (T.print ++ '\x7d' :: after))
    (hbefore : before.byteSize = place)
    (hspans : (braces t).drop first = T.spans place ++ later) (hlists : Lists t first hi branches)
    (hhi : first + T.count + 1 ≤ hi) : ∃ inner stray rest, branches = inner ++ (stray ++ rest) ∧
      Links (braces t).length T first inner ∧
      (∀ branch ∈ stray, branch.StrayAt (braces t).length (first + T.count)) ∧
      Lists t (first + T.count + 1) hi rest := by
  subst hbefore
  obtain ⟨inner, rest, rfl, hinner, hrest⟩ :=
    hlists.exists_append (Nat.le_add_right _ T.count) (by omega)
  obtain ⟨stray, rest, rfl, hstray, hrest⟩ := hrest.exists_append (Nat.le_succ _) hhi
  exact ⟨inner, stray, rest, rfl, h before _ first _ inner ht (.inr ⟨after, rfl⟩) hspans hinner,
    hstray.strayAt, hrest⟩

theorem Linked.text (h : Linked t rest) (s : Plain) : Linked t (text s rest) := by
  intro before after first later branches ht hafter hspans hlists
  rw [spans_text, ← byteSize_append] at hspans
  exact (h (before ++ s.text) after first later branches (by simp [ht, print]) hafter hspans
    (by simpa using hlists)).text

/-- The branch with the given condition, and those of its part. -/
theorem Linked.choice (h : Linked t body) (condition : Plain)
    (ht : t = before ++ (choice condition body ++ after))
    (hplace : before.byteSize + condition.text.byteSize = place)
    (hspans : (braces t).drop first = ⟨before.byteSize, place + 2, true⟩ ::
      (body.spans (place + 4) ++ ⟨place + 3, place + body.print.byteSize + 5, true⟩ :: later))
    (ifFalse : Option Nat) (hfalse : ∀ k, ifFalse = some k ↔
      SeparatedAt t (braces t) ':' (first + 1 + body.count) k)
    (hlists : Lists t first hi branches) (hhi : first + 1 + body.count + 1 ≤ hi) :
    ∃ inner stray rest, branches = ⟨first, first + 1 + body.count, ifFalse⟩ ::
        (inner ++ (stray ++ rest)) ∧ Links (braces t).length body (first + 1) inner ∧
      (∀ branch ∈ stray, branch.StrayAt (braces t).length (first + 1 + body.count)) ∧
      Lists t (first + 1 + body.count + 1) hi rest := by
  obtain ⟨hcondition, hinside⟩ := drop_succ_of_eq_cons hspans
  obtain ⟨hthen, -⟩ := drop_succ_of_eq_cons (drop_count hinside)
  obtain ⟨one, rest, rfl, hone, hrest⟩ := hlists.exists_append (Nat.le_succ _) (by omega)
  have htext : t = before ++ '\x7b' :: (condition.text ++ ['\x7d']) ++
      '?' :: '\x7b' :: (body.print ++ '\x7d' :: after) := by
    simp [ht, Template.choice]
  have hfollows : Follows t (braces t) ⟨first, first + 1 + body.count, ifFalse⟩ :=
    ⟨separatedAt_of_append isMark_question htext hcondition hthen (by simp; omega) rfl, hfalse⟩
  obtain rfl := hone.eq_singleton hfollows rfl
  have hbody : t = before ++ conditionText condition ++ (body.print ++ '\x7d' :: after) := by
    simp [ht, choice_eq]
  obtain ⟨inner, stray, rest, rfl, hinner, hstray, hrest⟩ :=
    h.braced hbody (by simp; omega) hinside hrest hhi
  exact ⟨inner, stray, rest, rfl, hinner, hstray, hrest⟩

theorem Linked.ifThen (hb : Linked t body) (hr : Linked t rest) (condition : Plain)
    (hapart : rest.hasBranch → ∀ s ∈ rest.leads, s.trim ≠ [':']) :
    Linked t (ifThen condition body rest) := by
  intro before after first later branches ht hafter hspans hlists
  obtain ⟨place, hplace⟩ : ∃ place, before.byteSize + condition.text.byteSize = place := ⟨_, rfl⟩
  rw [print_ifThen, append_assoc] at ht
  rw [spans_ifThen, hplace, cons_append, append_assoc, cons_append] at hspans
  obtain ⟨hthen, hrest⟩ := drop_succ_of_eq_cons (drop_count (drop_succ_of_eq_cons hspans).2)
  have htext : t = before ++ Template.choice condition body ++ (rest.print ++ after) := by simp [ht]
  have hsize : (before ++ Template.choice condition body).byteSize =
      place + body.print.byteSize + 5 := by
    rw [byteSize_append, byteSize_choice]
    omega
  have hnone := rest.not_separatedAt isMark_colon hapart htext hafter hthen hsize
  have hcount : first + (Template.ifThen condition body rest).count =
      first + 1 + body.count + 1 + rest.count := by
    rw [count_ifThen]
    omega
  rw [hcount] at hlists
  obtain ⟨inner, stray, branches, rfl, hinner, hstray, hbranches⟩ := hb.choice condition ht hplace
    hspans none (fun k => iff_of_false (by simp) (hnone k)) hlists (by omega)
  exact .ifThen hinner hstray (hr _ after _ later _ htext hafter (hsize ▸ hrest) hbranches)

theorem Linked.ifThenElse (hb : Linked t body) (ho : Linked t other) (hr : Linked t rest)
    (condition : Plain) : Linked t (ifThenElse condition body other rest) := by
  intro before after first later branches ht hafter hspans hlists
  obtain ⟨place, hplace⟩ : ∃ place, before.byteSize + condition.text.byteSize = place := ⟨_, rfl⟩
  rw [print_ifThenElse, append_assoc, append_assoc] at ht
  rw [spans_ifThenElse, hplace, cons_append, append_assoc, cons_append, append_assoc,
    cons_append] at hspans
  obtain ⟨hthen, hinside⟩ := drop_succ_of_eq_cons (drop_count (drop_succ_of_eq_cons hspans).2)
  obtain ⟨helse, hrest⟩ := drop_succ_of_eq_cons (drop_count hinside)
  have hsize : (before ++ Template.choice condition body).byteSize =
      place + body.print.byteSize + 5 := by
    rw [byteSize_append, byteSize_choice]
    omega
  have hcolon : t = before ++ Template.choice condition body ++
      ':' :: '\x7b' :: (other.print ++ '\x7d' :: (rest.print ++ after)) := by
    simp [ht, alternative]
  have hother : SeparatedAt t (braces t) ':' _ _ :=
    separatedAt_of_append isMark_colon hcolon hthen helse hsize rfl
  have hcount : first + (Template.ifThenElse condition body other rest).count =
      first + 1 + body.count + 1 + other.count + 1 + rest.count := by
    rw [count_ifThenElse]
    omega
  rw [hcount] at hlists
  obtain ⟨inner, stray, branches, rfl, hinner, hstray, hbranches⟩ := hb.choice condition ht hplace
    hspans (some _) (fun _ => hother.some_eq_iff isMark_colon) hlists (by omega)
  have hbehind : t = before ++ Template.choice condition body ++ [':', '\x7b'] ++
      (other.print ++ '\x7d' :: (rest.print ++ after)) := by
    simp [hcolon]
  obtain ⟨inner', stray', branches, rfl, hinner', hstray', hbranches⟩ := ho.braced hbehind
    (by rw [byteSize_append, hsize]; rfl) hinside hbranches (by omega)
  have htext : t = before ++ Template.choice condition body ++ alternative other ++
      (rest.print ++ after) := by
    simp [ht]
  have hend : (before ++ Template.choice condition body ++ alternative other).byteSize =
      place + body.print.byteSize + other.print.byteSize + 8 := by
    rw [byteSize_append, hsize, byteSize_alternative]
    omega
  exact .ifThenElse hinner hstray hinner' hstray'
    (hr _ after _ later _ htext hafter (hend ▸ hrest) hbranches)

theorem linked (t : Text) (T : Template) (hT : T.Apart) : Linked t T := by
  induction T with
  | nil =>
    intro before after first later branches _ _ _ hlists
    obtain rfl : branches = [] := eq_nil_iff_forall_not_mem.2 fun branch hmem => by
      obtain ⟨hlo, hhi, -⟩ := (hlists.mem_iff branch).1 hmem
      rw [count_nil] at hhi
      omega
    exact .nil
  | text s rest ih => exact (ih hT).text s
  | ifThen condition body rest ihb ihr =>
    obtain ⟨hbody, hrest, hapart⟩ := hT
    exact (ihb hbody).ifThen (ihr hrest) condition hapart
  | ifThenElse condition body other rest ihb iho ihr =>
    obtain ⟨hbody, hother, hrest⟩ := hT
    exact (ihb hbody).ifThenElse (iho hother) (ihr hrest) condition

/-- The branches of a printed template. -/
theorem exists_link_print (T : Template) (hT : T.Apart) :
    ∃ branches, Links T.count T 0 branches ∧ link T.print (T.spans 0) = .ok branches := by
  obtain ⟨branches, hlink, hordered, hmem⟩ := exists_link_follows T.print
  have hcount : (braces T.print).length = T.count := by rw [braces, find_print, length_spans]
  have hlists : Lists T.print 0 (0 + T.count) branches := by
    refine ⟨hordered, fun branch => (hmem branch).trans ⟨fun h => ?_, fun h => h.2.2⟩⟩
    have hlt := h.ifTrue.lt isMark_question
    have := h.ifTrue.lt_length
    exact ⟨Nat.zero_le _, by omega, h⟩
  rw [braces, find_print] at hlink
  have hlinks := linked T.print T hT [] [] 0 [] branches (by simp) (.inl rfl)
    (by simp [find_print]) hlists
  exact ⟨branches, hcount ▸ hlinks, hlink⟩

end Template

end SqlScript
