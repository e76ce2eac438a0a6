import SqlScript.Proofs.Slice
import SqlScript.Span

/-!
# Texts as nests of brackets

A nest is a text with its brackets matched : single characters and bracketed groups, one after
another, each group around a nest of its own (`Nest.text`). The spans of a nest that stands at an
offset are read off its groups, inner before outer (`Nest.spans`).

Every text is the text of a nest whose groups are the spans that `SpanSet.find` finds
(`find_eq_spans`). A delimiter without a partner is a character of that nest like any other. The
reading goes from the right, so that an opening delimiter meets the nests that the closing ones
after it have left behind (`Nest.read`). No such delimiter stands in a group of that nest. Hence the
spans that are found are those stretches of the text that are groups with all their delimiters
matched (`mem_find_iff`).
-/

namespace SqlScript

open List SpanSet Text

variable {place : Nat} {span : Span}

/-- Characters and bracketed groups, one after another. -/
inductive Nest where
  | nil
  | char (c : Char) (rest : Nest)
  | group (inner rest : Nest)
deriving DecidableEq, Repr

namespace Nest

variable (opening closing : Char)

/-- The characters of a nest, with delimiters around its groups. -/
def text : Nest → Text
  | nil => []
  | char c rest => c :: rest.text
  | group inner rest => opening :: (inner.text ++ closing :: rest.text)

/-- The offset past the group around `inner` that starts at `place`. -/
def stopAfter (place : Nat) (inner : Nest) : Nat :=
  place + opening.utf8Size + (inner.text opening closing).byteSize + closing.utf8Size

/-- The spans of the groups of a nest that stands at `place`, in the order in which they close. -/
def spans (place : Nat) : Nest → SpanSet
  | nil => []
  | char c rest => rest.spans (place + c.utf8Size)
  | group inner rest =>
    let stop := stopAfter opening closing place inner
    inner.spans (place + opening.utf8Size) ++ ⟨place, stop, true⟩ :: rest.spans stop

/-- Two nests, one after the other. -/
def append : Nest → Nest → Nest
  | nil, other => other
  | char c rest, other => char c (rest.append other)
  | group inner rest, other => group inner (rest.append other)

/-- The nest of single characters. -/
def ofChars : Text → Nest
  | [] => nil
  | c :: t => char c (ofChars t)

/-- The number of groups. -/
def count : Nest → Nat
  | nil => 0
  | char _ rest => rest.count
  | group inner rest => inner.count + 1 + rest.count

/-- No character of the nest is a delimiter. -/
def Clean : Nest → Prop
  | nil => True
  | char c rest => c ≠ opening ∧ c ≠ closing ∧ rest.Clean
  | group inner rest => inner.Clean ∧ rest.Clean

/-- What stands in the groups is clean; beside them delimiters may stand. -/
def CleanInside : Nest → Prop
  | nil => True
  | char _ rest => rest.CleanInside
  | group inner rest => inner.Clean opening closing ∧ rest.CleanInside

/-- Delimiters around a text in which every delimiter has its partner. -/
def IsGroup (t : Text) : Prop :=
  ∃ N : Nest, N.Clean opening closing ∧ t = opening :: (N.text opening closing ++ [closing])

variable {opening closing}

@[simp] theorem text_append (N M : Nest) :
    (N.append M).text opening closing = N.text opening closing ++ M.text opening closing := by
  induction N with
  | nil => rfl
  | char c rest ih => simp [append, text, ih]
  | group inner rest _ ih => simp [append, text, ih]

@[simp] theorem text_ofChars (t : Text) : (ofChars t).text opening closing = t := by
  induction t with
  | nil => rfl
  | cons c t ih => simp [ofChars, text, ih]

@[simp] theorem spans_ofChars (t : Text) (place : Nat) :
    (ofChars t).spans opening closing place = [] := by
  induction t generalizing place with
  | nil => rfl
  | cons c t ih => simp [ofChars, spans, ih]

theorem spans_append (N M : Nest) (place : Nat) : (N.append M).spans opening closing place =
    N.spans opening closing place ++
      M.spans opening closing (place + (N.text opening closing).byteSize) := by
  induction N generalizing place with
  | nil => simp [append, spans, text]
  | char c rest ih => simp [append, spans, text, ih, Nat.add_assoc]
  | group inner rest _ ih => simp [append, spans, text, ih, stopAfter, Nat.add_assoc]

@[simp] theorem length_spans (N : Nest) (place : Nat) :
    (N.spans opening closing place).length = N.count := by
  induction N generalizing place with
  | nil => rfl
  | char c rest ih => exact ih _
  | group inner rest ihi ihr =>
    simp only [spans, length_append, length_cons, ihi, ihr, count]
    omega

variable {N : Nest}

theorem clean_append {M : Nest} (hN : N.Clean opening closing) (hM : M.Clean opening closing) :
    (N.append M).Clean opening closing := by
  induction N with
  | nil => exact hM
  | char c rest ih => exact ⟨hN.1, hN.2.1, ih hN.2.2⟩
  | group inner rest _ ih => exact ⟨hN.1, ih hN.2⟩

theorem clean_ofChars {t : Text} (hopening : opening ∉ t) (hclosing : closing ∉ t) :
    (ofChars t).Clean opening closing := by
  induction t with
  | nil => trivial
  | cons c t ih =>
    simp only [mem_cons, not_or] at hopening hclosing
    exact ⟨Ne.symm hopening.1, Ne.symm hclosing.1, ih hopening.2 hclosing.2⟩

theorem Clean.cleanInside (h : N.Clean opening closing) : N.CleanInside opening closing := by
  induction N with
  | nil => trivial
  | char c rest ih => exact ih h.2.2
  | group inner rest _ ih => exact ⟨h.1, ih h.2⟩

/-! ## Where the spans of a nest lie -/

/-- A span of a nest is valid and runs around a nest inside the text, from a delimiter to its
partner. -/
theorem exists_inner_of_mem_spans
    (h : span ∈ N.spans opening closing place) : span.valid ∧
    ∃ (a : Text) (inner : Nest) (b : Text), (N.CleanInside opening closing →
        inner.Clean opening closing) ∧
      N.text opening closing =
        a ++ (opening :: (inner.text opening closing ++ [closing]) ++ b) ∧
      span.start = place + a.byteSize ∧
      span.stop = span.start + byteSize (opening :: (inner.text opening closing ++ [closing])) := by
  induction N generalizing place with
  | nil => simp [spans] at h
  | char c rest ih =>
    obtain ⟨hv, a, body, b, hclean, htext, hstart, hstop⟩ := ih h
    refine ⟨hv, c :: a, body, b, hclean, by simp [text, htext], ?_, hstop⟩
    rw [hstart, byteSize_cons, Nat.add_assoc]
  | group inner rest ihi ihr =>
    simp only [spans, mem_append, mem_cons] at h
    rcases h with h | rfl | h
    · obtain ⟨hv, a, body, b, hclean, htext, hstart, hstop⟩ := ihi h
      refine ⟨hv, opening :: a, body, b ++ closing :: rest.text opening closing,
        fun hin => hclean hin.1.cleanInside, by simp [text, htext], ?_, hstop⟩
      rw [hstart, byteSize_cons, Nat.add_assoc]
    · refine ⟨rfl, [], inner, rest.text opening closing, fun hin => hin.1, by simp [text], rfl, ?_⟩
      simp [stopAfter, Nat.add_assoc]
    · obtain ⟨hv, a, body, b, hclean, htext, hstart, hstop⟩ := ihr h
      refine ⟨hv, opening :: (inner.text opening closing ++ closing :: a), body, b,
        fun hin => hclean hin.2, by simp [text, htext], ?_, hstop⟩
      simp [hstart, stopAfter, Nat.add_assoc]

theorem exists_append_of_mem_spans
    (h : span ∈ N.spans opening closing place) : span.valid ∧ ∃ a body b : Text,
      N.text opening closing = a ++ (opening :: (body ++ [closing]) ++ b) ∧
      span.start = place + a.byteSize ∧
      span.stop = span.start + byteSize (opening :: (body ++ [closing])) := by
  obtain ⟨hv, a, inner, b, -, hspan⟩ := exists_inner_of_mem_spans h
  exact ⟨hv, a, inner.text opening closing, b, hspan⟩

/-- The spans of a nest lie within its text. -/
theorem bounds_of_mem_spans
    (h : span ∈ N.spans opening closing place) : place ≤ span.start ∧ span.start < span.stop ∧
      span.stop ≤ place + (N.text opening closing).byteSize := by
  obtain ⟨-, a, body, b, htext, hstart, hstop⟩ := exists_append_of_mem_spans h
  have := opening.utf8Size_pos
  rw [htext, byteSize_append, byteSize_append]
  simp only [byteSize_cons] at *
  omega

/-- The spans of a nest are listed in the order in which they stop. -/
theorem pairwise_stop (N : Nest) (place : Nat) :
    (N.spans opening closing place).Pairwise fun a b => a.stop < b.stop := by
  induction N generalizing place with
  | nil => exact .nil
  | char c rest ih => exact ih _
  | group inner rest ihi ihr =>
    have hc := closing.utf8Size_pos
    simp only [spans, pairwise_append, pairwise_cons, mem_cons]
    have hafter : ∀ b ∈ rest.spans opening closing (stopAfter opening closing place inner),
        stopAfter opening closing place inner < b.stop := by
      intro b hb
      obtain ⟨hstart, hlt, -⟩ := bounds_of_mem_spans hb
      omega
    refine ⟨ihi _, ⟨hafter, ihr _⟩, fun a ha b hb => ?_⟩
    obtain ⟨-, -, hstop⟩ := bounds_of_mem_spans ha
    have hbefore : a.stop < stopAfter opening closing place inner := by
      simp only [stopAfter]
      omega
    rcases hb with rfl | hb
    · exact hbefore
    · exact Nat.lt_trans hbefore (hafter b hb)

/-! ## Finding the spans -/

/-- The spans of a text that starts with a clean nest are those of the nest, and then those of what
follows. -/
theorem findFrom_text_append (hN : N.Clean opening closing) (hne : opening ≠ closing) (place : Nat)
    (opened : List Nat) (after : Text) :
    findFrom opening closing place opened (N.text opening closing ++ after) =
      N.spans opening closing place ++ findFrom opening closing
        (place + (N.text opening closing).byteSize) opened after := by
  induction N generalizing place opened after with
  | nil => simp [text, spans]
  | char c rest ih =>
    obtain ⟨ho, hc, hrest⟩ := hN
    simp [text, spans, findFrom, ho, hc, ih hrest, Nat.add_assoc]
  | group inner rest ihi ihr =>
    simp only [text, spans, cons_append, append_assoc, findFrom, beq_self_eq_true,
      if_true, ihi hN.1, ihr hN.2, hne.symm, beq_eq_false_iff_ne.2, ne_eq, not_false_iff,
      Bool.false_eq_true, if_false]
    simp [stopAfter, Nat.add_assoc]

variable (opening closing)

/-- The nest before the first closing delimiter without a partner, and the nests after each such
delimiter. -/
def read : Text → Nest × List Nest
  | [] => (nil, [])
  | c :: t =>
    if c == opening then
      match read t with
      | (front, []) => (char c front, [])
      | (front, next :: later) => (group front next, later)
    else if c == closing then (nil, (read t).1 :: (read t).2)
    else (char c (read t).1, (read t).2)

/-- The nests, with closing delimiters between them. -/
def glue (front : Nest) : List Nest → Nest
  | [] => front
  | next :: later => front.append (char closing (glue next later))

/-- The nest of a text. -/
def ofText (t : Text) : Nest :=
  glue closing (read opening closing t).1 (read opening closing t).2

/-- The spans of the nests, the closing delimiters between them being partners of what is open. -/
def spansRead (place : Nat) (opened : List Nat) (front : Nest) : List Nest → SpanSet
  | [] => front.spans opening closing place
  | next :: later =>
    let stop := place + (front.text opening closing).byteSize + closing.utf8Size
    front.spans opening closing place ++
      match opened with
      | start :: outer => ⟨start, stop, true⟩ :: spansRead stop outer next later
      | [] => spansRead stop [] next later

variable {opening closing}

theorem text_glue_char (c : Char) (front : Nest) (later : List Nest) :
    (glue closing (char c front) later).text opening closing =
      c :: (glue closing front later).text opening closing := by
  cases later <;> simp [glue, append, text]

theorem text_glue_group (front next : Nest) (later : List Nest) :
    (glue closing (group front next) later).text opening closing =
      opening :: (front.text opening closing ++
        closing :: (glue closing next later).text opening closing) := by
  cases later <;> simp [glue, append, text]

/-- Nothing is lost in reading. -/
@[simp] theorem text_ofText (t : Text) : (ofText opening closing t).text opening closing = t := by
  induction t with
  | nil => rfl
  | cons c t ih =>
    unfold ofText at ih ⊢
    simp only [read]
    split
    · rename_i ho
      obtain rfl := eq_of_beq ho
      split
      · rename_i front hread
        rw [hread] at ih
        rw [text_glue_char, ih]
      · rename_i front next later hread
        rw [hread] at ih
        rw [text_glue_group, ← ih]
        simp [glue, text]
    · split
      · rename_i hc
        obtain rfl := eq_of_beq hc
        simp [glue, append, text, ih]
      · rw [text_glue_char, ih]

theorem spansRead_char (place : Nat) (opened : List Nat) (c : Char) (front : Nest)
    (later : List Nest) : spansRead opening closing place opened (char c front) later =
      spansRead opening closing (place + c.utf8Size) opened front later := by
  cases later <;> simp [spansRead, spans, text, Nat.add_assoc]

theorem spansRead_group (place : Nat) (opened : List Nat) (front next : Nest)
    (later : List Nest) : spansRead opening closing place opened (group front next) later =
      spansRead opening closing (place + opening.utf8Size) (place :: opened) front
        (next :: later) := by
  cases later <;> simp [spansRead, spans, text, stopAfter, Nat.add_assoc]

theorem findFrom_eq_spansRead (place : Nat) (opened : List Nat) (t : Text) :
    findFrom opening closing place opened t = spansRead opening closing place opened
      (read opening closing t).1 (read opening closing t).2 := by
  induction t generalizing place opened with
  | nil => rfl
  | cons c t ih =>
    simp only [findFrom, read]
    split
    · rename_i ho
      obtain rfl := eq_of_beq ho
      rw [ih]
      split
      · rename_i front hread
        rw [hread, spansRead_char]
        rfl
      · rename_i front next later hread
        rw [hread, spansRead_group]
    · split
      · rename_i hc
        obtain rfl := eq_of_beq hc
        cases opened <;> simp [spansRead, spans, text, ih]
      · rw [ih, spansRead_char]

theorem spansRead_nil (place : Nat) (front : Nest) (later : List Nest) :
    spansRead opening closing place [] front later =
      (glue closing front later).spans opening closing place := by
  induction later generalizing place front with
  | nil => rfl
  | cons next later ih => simp [spansRead, glue, spans_append, spans, ih]

/-- The spans that are found in a text are the groups of its nest. -/
theorem find_eq_spans (t : Text) :
    find opening closing t = (ofText opening closing t).spans opening closing 0 := by
  rw [find, findFrom_eq_spansRead, spansRead_nil, ofText]

/-- In a clean nest they are the groups of that nest. -/
theorem find_text (hN : N.Clean opening closing) (hne : opening ≠ closing) :
    find opening closing (N.text opening closing) = N.spans opening closing 0 := by
  have := findFrom_text_append hN hne 0 [] []
  simpa [find, findFrom] using this

/-! ## The groups of a text -/

variable (opening closing)

/-- Of the nests, the last has clean groups, and the others are clean. -/
def CleanRead (front : Nest) : List Nest → Prop
  | [] => front.CleanInside opening closing
  | next :: later => front.Clean opening closing ∧ CleanRead next later

variable {opening closing}

/-- An opening delimiter without a partner stands behind all the closing ones. -/
theorem cleanRead_read (t : Text) :
    CleanRead opening closing (read opening closing t).1 (read opening closing t).2 := by
  induction t with
  | nil => trivial
  | cons c t ih =>
    simp only [read]
    split
    · split
      · rename_i front hread
        rw [hread] at ih
        exact ih
      · rename_i front next later hread
        rw [hread] at ih
        cases later with
        | nil => exact ih
        | cons other later => exact ⟨⟨ih.1, ih.2.1⟩, ih.2.2⟩
    · rename_i ho
      split
      · exact ⟨trivial, ih⟩
      · rename_i hc
        cases hlater : (read opening closing t).2 with
        | nil =>
          rw [hlater] at ih
          exact ih
        | cons next later =>
          rw [hlater] at ih
          exact ⟨⟨by simpa using ho, by simpa using hc, ih.1⟩, ih.2⟩

theorem CleanInside.append {M : Nest} (hN : N.CleanInside opening closing)
    (hM : M.CleanInside opening closing) : (N.append M).CleanInside opening closing := by
  induction N with
  | nil => exact hM
  | char c rest ih => exact ih hN
  | group inner rest _ ih => exact ⟨hN.1, ih hN.2⟩

theorem CleanRead.cleanInside_glue {front : Nest} {later : List Nest}
    (h : CleanRead opening closing front later) :
    (glue closing front later).CleanInside opening closing := by
  induction later generalizing front with
  | nil => exact h
  | cons next later ih => exact h.1.cleanInside.append (ih h.2)

/-- The spans of a text go on with those of its rest. -/
theorem exists_findFrom_append (a rest : Text) (place : Nat) (opened : List Nat) :
    ∃ spans opened', findFrom opening closing place opened (a ++ rest) =
      spans ++ findFrom opening closing (place + a.byteSize) opened' rest := by
  induction a generalizing place opened with
  | nil => exact ⟨[], opened, rfl⟩
  | cons c a ih =>
    simp only [cons_append, findFrom, byteSize_cons, ← Nat.add_assoc]
    split
    · exact ih _ _
    · split
      · cases opened with
        | nil => exact ih _ _
        | cons start outer =>
          obtain ⟨spans, opened', hfind⟩ := ih (place + c.utf8Size) outer
          exact ⟨⟨start, place + c.utf8Size, true⟩ :: spans, opened', congrArg _ hfind⟩
      · exact ih _ _

/-- The spans that are found in a text are its groups. -/
theorem mem_find_iff (hne : opening ≠ closing) {t : Text} :
    span ∈ find opening closing t ↔ span.valid ∧
      ∃ group, IsGroup opening closing group ∧ t.slice? span.start span.stop = some group := by
  constructor
  · intro h
    rw [find_eq_spans] at h
    obtain ⟨hv, a, inner, b, hclean, htext, hstart, hstop⟩ := exists_inner_of_mem_spans h
    rw [text_ofText] at htext
    exact ⟨hv, _, ⟨inner, hclean (cleanRead_read t).cleanInside_glue, rfl⟩,
      slice?_eq_some_iff.2 ⟨a, b, htext, by omega, by omega⟩⟩
  · rintro ⟨hv, _, ⟨N, hN, rfl⟩, hslice⟩
    obtain ⟨start, stop, valid⟩ := span
    obtain ⟨a, b, rfl, rfl, rfl⟩ := slice?_eq_some_iff.1 hslice
    obtain rfl : valid := hv
    obtain ⟨before, opened, hfind⟩ := @exists_findFrom_append opening closing a
      (opening :: (N.text opening closing ++ closing :: b)) 0 []
    have hopening : (opening == opening) := beq_self_eq_true opening
    have hclosing : ¬(closing == opening) := by simpa using hne.symm
    simp only [findFrom, hopening, if_true, findFrom_text_append hN hne, if_neg hclosing,
      beq_self_eq_true] at hfind
    rw [find, show a ++ (opening :: (N.text opening closing ++ [closing]) ++ b) =
      a ++ opening :: (N.text opening closing ++ closing :: b) by simp, hfind]
    simp [Nat.add_assoc]

end Nest

end SqlScript
