import SqlScript.Proofs.Gaps
import SqlScript.Proofs.Joined
import SqlScript.Proofs.Primitive
import SqlScript.Template.Render

/-!
# Rendering by offsets

A text that is kept as a row of bytes is taken apart by offsets. The functions of `ByOffset` render
a template that way : every part of a text they look at is a slice between two offsets, and an
offset comes from a search, a sum or a difference. They answer nothing as soon as an offset is no
place between two characters, a slice ends before it starts, a difference falls below zero, or
nothing stands at an index or under a name.

None of this ever happens. Each function answers what the function on the characters answers :
`ByOffset.evalFlat_eq` for conditions without groups, `ByOffset.foldGroup_eq` for groups,
`ByOffset.linkFrom_eq` and `ByOffset.resolveIn_eq` for branches, and `ByOffset.substituteFrom_eq`
for parameters. So rendering succeeds on every template, and what it visits has its delimiters
(`exists_render`).
-/

namespace SqlScript

open List Option Text Branch SpanSet

variable {c : Char} {before rest : Text} {α β : Type}

namespace ByOffset

/-! ## Conditions -/

/-- The difference of two sizes, if it is not below zero. -/
def minus? (m n : Nat) : Option Nat :=
  if n ≤ m then some (m - n) else none

/-- The byte offset of the first occurrence of the mark. -/
def find? (t mark : Text) : Option Nat :=
  (t.cut? mark).map fun parts => byteSize parts.1

/-- The text without its first and its last byte. -/
def between (t : Text) : Option Text := do
  t.slice? 1 (← minus? t.byteSize 1)

/-- The text without one pair of equal quote marks around it. -/
def unquote (t : Text) : Option Text :=
  if 1 < t.byteSize && (t.head?.any isQuoteMark && t.head? == t.getLast?) then between t
  else some t

/-- An operand without blanks and quotes around it. -/
def operand (t : Text) : Option Text :=
  unquote t.trim

/-- Whether the operands around the first occurrence of the operator are equal, if it occurs. -/
def compare (operator t : Text) : Option (Option Bool) := do
  match find? t operator with
  | none => return none
  | some place =>
    let left ← operand (← t.takeBytes? place)
    let right ← operand (← t.dropBytes? (place + operator.byteSize))
    return some (left == right)

/-- The items of a list in parentheses that is not empty. -/
def listItems (t : Text) : Option (Option (List Text)) := do
  if 2 < t.byteSize && (t.head? == some '(' && t.getLast? == some ')') then
    return some (← ((← between t).fields ',').mapM operand)
  else return none

/-- The value of a membership test, if the text is one. -/
def member (t : Text) : Option (Option Bool) := do
  match t.findFolded? " in ".toList with
  | none => return none
  | some place =>
    let left ← operand (← t.takeBytes? place)
    let right := (← t.dropBytes? (place + 4)).trim
    return (← listItems right).map fun items => items.contains left

/-- The value of a condition without operators that join conditions. -/
def evalPrimitive (t : Text) : Option Bool := do
  let t := t.trim
  match Condition.constant? t with
  | some value => return value
  | none =>
    match ← compare "==".toList t with
    | some equal => return equal
    | none =>
      match (← compare "!=".toList t).or (← compare "<>".toList t) with
      | some equal => return !equal
      | none => return (← member t).getD true

/-- The value of a condition without groups. -/
def evalFlat (t : Text) : Option Bool := do
  let t := t.trim
  if t.contains '&' then return (← (Condition.operands '&' t).mapM evalPrimitive).all id
  else if t.contains '|' then return (← (Condition.operands '|' t).mapM evalPrimitive).any id
  else evalPrimitive t

/-- Whether the text up to an offset ends in the word `in`, blanks at the end aside. -/
def precededByIn (t : Text) (start : Nat) : Option Bool := do
  let before := (← t.takeBytes? start).trimEnd
  match minus? before.byteSize 2 with
  | none => return false
  | some place =>
    if (before.dropBytes? place).isNone then return false
    let word ← before.dropBytes? place
    let front ← before.takeBytes? place
    return eqFolded word "in".toList && front.getLast?.all isBlank

/-- The bytes between the delimiters of a span. -/
def inner (span : Span) : Option Extent := do
  return ⟨span.start + 1, ← minus? span.stop 1⟩

/-- The text with `target` replaced by the bytes of `source`, and the spans moved along. What stays
of the text is not less than nothing. -/
def splice (spans : SpanSet) (t : Text) (target source : Extent) : Option (Text × SpanSet) := do
  let part ← t.slice? source.start source.stop
  let _ ← minus? t.byteSize target.size
  let before ← t.takeBytes? target.start
  let after ← t.dropBytes? target.stop
  return (before ++ part ++ after, spans.map (Span.afterSplice target source))

/-- Replaces the group with the given index by its value, unless it is the list of a membership
test. -/
def foldGroup (state : Text × SpanSet) (index : Nat) : Option (Text × SpanSet) := do
  let (t, groups) := state
  let group ← groups[index]?
  if !group.valid then return state
  if ← precededByIn t group.start then return state
  let extent ← inner group
  let value ← evalFlat (← t.slice? extent.start extent.stop)
  let before ← t.takeBytes? group.start
  let after ← t.dropBytes? (group.start + 1)
  splice groups (before ++ Condition.digit value :: after)
    ⟨group.start, group.stop⟩ ⟨group.start, group.start + 1⟩

/-- The value of a condition of the extended grammar. -/
def evalExtended (t : Text) : Option Bool := do
  let t := t.trim
  let groups := find '(' ')' t
  let (flat, _) ← (range groups.length).foldlM foldGroup (t, groups)
  evalFlat flat

/-- The value of a condition of the legacy grammar. -/
def evalLegacy (t : Text) : Option Bool := do
  let t := t.trim
  if t.eqFolded "false".toList || t == ['0'] then return false
  match ← compare "==".toList t with
  | some equal => return equal
  | none =>
    match ← compare "!=".toList t with
    | some equal => return !equal
    | none => return true

/-- The value of a condition. -/
def eval (grammar : Grammar) (t : Text) : Option Bool :=
  match grammar with
  | .legacy => evalLegacy t
  | .extended => evalExtended t

/-! ## Branches -/

/-- Whether the span with the second index follows the one with the first, and nothing but the mark
and blanks stands between them. -/
def separated (t : Text) (spans : SpanSet) (mark : Char) (i j : Nat) : Option Bool := do
  let a ← spans[i]?
  let b ← spans[j]?
  if b.start < a.stop then return false
  return (← t.slice? a.stop b.start).trim == [mark]

/-- The first of the indices whose span the mark separates from the one with the given index, and
the indices after it. -/
def firstSeparated (t : Text) (spans : SpanSet) (mark : Char) (i : Nat) :
    List Nat → Option (Option (Nat × List Nat))
  | [] => some none
  | j :: later => do
    if ← separated t spans mark i j then return some (j, later)
    else firstSeparated t spans mark i later

/-- The branches whose condition has one of the indices. -/
def linkFrom (t : Text) (spans : SpanSet) : List Nat → Option (List Branch)
  | [] => some []
  | i :: later => do
    match ← firstSeparated t spans '?' i later with
    | none => linkFrom t spans later
    | some (j, rest) =>
      let found ← firstSeparated t spans ':' j rest
      let branches ← linkFrom t spans later
      return ⟨i, j, found.map fun next => next.1⟩ :: branches

/-- Puts the chosen part in the place of the branch. -/
def resolveIn (grammar : Grammar) (state : Text × SpanSet) (branch : Branch) :
    Option (Text × SpanSet) := do
  let (t, spans) := state
  let condition ← spans[branch.condition]?
  let ifTrue ← spans[branch.ifTrue]?
  let last ← spans[branch.last]?
  if !(condition.valid && ifTrue.valid && last.valid) then return state
  let extent ← inner condition
  let holds ← eval grammar (← t.slice? extent.start extent.stop)
  match if holds then some branch.ifTrue else branch.ifFalse with
  | some index =>
    let chosen ← spans[index]?
    splice spans t ⟨condition.start, last.stop⟩ (← inner chosen)
  | none => splice spans t ⟨condition.start, last.stop⟩ ⟨condition.start, condition.start⟩

/-- The text with every branch resolved. -/
def resolve (grammar : Grammar) (t : Text) : Option Text := do
  let spans := find '\x7b' '\x7d' t
  let branches ← linkFrom t spans (range spans.length)
  let (resolved, _) ← branches.foldlM (resolveIn grammar) (t, spans)
  return resolved

/-! ## Parameters -/

/-- The names that are not empty, the longest ones first. -/
def names (values : Parameters) : List Text :=
  ((values.map Prod.fst).filter fun name => !name.isEmpty).mergeSort
    fun a b => b.byteSize ≤ a.byteSize

/-- The text with every reference to a name replaced by its value, where at most `fuel` references
are looked at. -/
def substituteFrom (values : Parameters) : Nat → Text → Option Text
  | 0, _ => none
  | fuel + 1, t => do
    match find? t ['@'] with
    | none => return t
    | some place =>
      let before ← t.takeBytes? place
      let after ← t.dropBytes? (place + 1)
      match (names values).find? fun name => (after.strip? name).isSome with
      | some name =>
        let value ← values.get? name
        let rest ← after.dropBytes? name.byteSize
        return before ++ (value ++ (← substituteFrom values fuel rest))
      | none => return before ++ ('@' :: (← substituteFrom values fuel after))

/-- The name and value a declaration gives, if it has both. -/
def declared (body : Text) : Option (Option (Text × Text)) := do
  match body.cut? ['='] with
  | none => return none
  | some (left, right) =>
    let name := left.trim
    let name := (name.strip? ['@']).getD name
    if name.isEmpty then return none
    return some (name, ← unquote right.trim)

/-- The text a template stands for. -/
def render (grammar : Grammar) (template : Text) (parameters : Parameters) : Option Text := do
  let (stripped, bodies) := Default.segments template
  let defaults := ((← bodies.mapM declared).filterMap id).foldl
    (fun (values : Parameters) (name, value) => values.insert name value) []
  let text ← substituteFrom (parameters.withDefaults defaults) (stripped.length + 1) stripped
  resolve grammar text

/-! ## Conditions without groups -/

theorem minus?_of_le {m n : Nat} (h : n ≤ m) : minus? m n = some (m - n) :=
  if_pos h

theorem utf8Size_of_isQuoteMark (h : isQuoteMark c) : c.utf8Size = 1 := by
  simp only [isQuoteMark, Bool.or_eq_true, beq_iff_eq] at h
  rcases h with rfl | rfl <;> rfl

theorem between_append {d : Char} (hc : c.utf8Size = 1) (hd : d.utf8Size = 1) (s : Text) :
    between (c :: (s ++ [d])) = some s := by
  have hsize : byteSize (c :: (s ++ [d])) = 1 + s.byteSize + 1 := by
    simp [hc, hd, Nat.add_assoc]
  have hslice := slice?_append [c] s [d]
  rw [show byteSize [c] = 1 by simp [hc]] at hslice
  rw [between, hsize, minus?_of_le (by omega), Nat.add_sub_cancel]
  exact hslice

theorem unquote_eq (t : Text) : unquote t = some t.unquote := by
  cases t with
  | nil => rfl
  | cons c t =>
    by_cases hquoted : (Text.isQuoteMark c && t.getLast? == some c)
    · simp only [Bool.and_eq_true, beq_iff_eq] at hquoted
      obtain ⟨hc, hlast⟩ := hquoted
      obtain ⟨s, rfl⟩ := getLast?_eq_some_iff.1 hlast
      have hsize := utf8Size_of_isQuoteMark hc
      have htest : (decide (1 < Text.byteSize (c :: (s ++ [c]))) &&
          ((c :: (s ++ [c])).head?.any Text.isQuoteMark &&
            (c :: (s ++ [c])).head? == (c :: (s ++ [c])).getLast?)) := by
        rw [← cons_append, getLast?_concat]
        simp [hc, hsize]
      rw [unquote, if_pos htest, between_append hsize hsize, unquote_append hc]
    · rw [Text.unquote, if_neg hquoted, unquote, if_neg]
      intro htest
      simp only [Bool.and_eq_true, decide_eq_true_eq, head?_cons, any_some, beq_iff_eq] at htest
      obtain ⟨hlong, hc, hlast⟩ := htest
      cases t with
      | nil => simp [utf8Size_of_isQuoteMark hc] at hlong
      | cons d t =>
        rw [getLast?_cons_cons] at hlast
        exact hquoted (by simp [hc, ← hlast])

theorem operand_eq (t : Text) : operand t = some (Condition.operand t) :=
  unquote_eq t.trim

/-- The parts around a mark are cut off at its ends. -/
theorem bytes_around (before mark rest : Text) {size : Nat} (h : mark.byteSize = size) :
    takeBytes? (before ++ (mark ++ rest)) before.byteSize = some before ∧
    dropBytes? (before ++ (mark ++ rest)) (before.byteSize + size) = some rest := by
  refine ⟨takeBytes?_append before _, ?_⟩
  rw [← append_assoc, ← h, ← byteSize_append]
  exact dropBytes?_append _ rest

theorem compare_eq (operator t : Text) :
    compare operator t = some (Condition.compare? operator t) := by
  cases hcut : t.cut? operator with
  | none => simp [compare, find?, Condition.compare?, hcut]
  | some parts =>
    obtain ⟨before, rest⟩ := parts
    obtain rfl := append_of_cut? hcut
    obtain ⟨htake, hdrop⟩ := bytes_around before operator rest rfl
    simp [compare, find?, Condition.compare?, hcut, htake, hdrop, operand_eq]

theorem append_of_stripFolded? {lead t : Text} (h : t.stripFolded? lead = some rest) :
    ∃ m : Text, t = m ++ rest ∧ m.toLowerAscii = lead.toLowerAscii := by
  induction lead generalizing t with
  | nil => exact ⟨[], by simpa [stripFolded?, stripBy?] using h, rfl⟩
  | cons p lead ih =>
    cases t with
    | nil => simp [stripFolded?, stripBy?] at h
    | cons c t =>
      simp only [stripFolded?, stripBy?] at h
      split at h
      · rename_i hsame
        obtain ⟨m, rfl, hm⟩ := ih h
        exact ⟨c :: m, rfl, congrArg₂ cons (eq_of_beq hsame).symm hm⟩
      · simp at h

/-- A cut at a mark in any case loses only the mark. -/
theorem append_of_cutFolded? {mark t : Text}
    (h : t.cutFolded? mark = some (before, rest)) :
    ∃ m : Text, t = before ++ (m ++ rest) ∧ m.toLowerAscii = mark.toLowerAscii := by
  induction t generalizing before with
  | nil =>
    simp only [cutFolded?, cutBy?, map_eq_some_iff, Prod.mk.injEq] at h
    obtain ⟨rest', hstrip, rfl, rfl⟩ := h
    simpa using append_of_stripFolded? hstrip
  | cons c t ih =>
    simp only [cutFolded?, cutBy?] at h
    split at h
    · rename_i rest' hstrip
      cases h
      simpa using append_of_stripFolded? hstrip
    · simp only [map_eq_some_iff, Prod.mk.injEq, Prod.exists] at h
      obtain ⟨before', rest', hcut, rfl, rfl⟩ := h
      obtain ⟨m, rfl, hm⟩ := ih hcut
      exact ⟨m, rfl, hm⟩

theorem mapM_eq_some {f : α → Option β} {g : α → β} (h : ∀ a, f a = some (g a))
    (l : List α) : l.mapM f = some (l.map g) := by
  rw [show f = fun a => pure (g a) from funext h, mapM_pure]
  rfl

theorem listItems_eq (t : Text) : listItems t = some (Condition.listItems? t) := by
  by_cases hlist : ∃ s : Text, s ≠ [] ∧ t = '(' :: (s ++ [')'])
  · obtain ⟨s, hs, rfl⟩ := hlist
    have hpos : 0 < s.byteSize := Nat.pos_of_ne_zero fun h => hs (byteSize_eq_zero_iff.1 h)
    have htest : (decide (2 < byteSize ('(' :: (s ++ [')']))) &&
        (('(' :: (s ++ [')'])).head? == some '(' &&
          ('(' :: (s ++ [')'])).getLast? == some ')')) := by
      rw [← cons_append, getLast?_concat]
      simp [show '('.utf8Size = 1 from rfl, show ')'.utf8Size = 1 from rfl]
      omega
    have hitems : Condition.listItems? ('(' :: (s ++ [')'])) =
        some ((s.fields ',').map Condition.operand) := by
      have hlong := length_pos_of_ne_nil hs
      simp [Condition.listItems?, hlong]
    rw [listItems, if_pos htest, between_append rfl rfl, hitems, bind_eq_bind,
      bind_some, mapM_eq_some operand_eq]
    rfl
  · have hitems : Condition.listItems? t = none := by
      unfold Condition.listItems?
      split
      · rename_i s
        refine if_neg fun htest => ?_
        simp only [Bool.and_eq_true, beq_iff_eq, decide_eq_true_eq] at htest
        obtain ⟨s, rfl⟩ := getLast?_eq_some_iff.1 htest.1
        exact hlist ⟨s, fun hs => by simp [hs] at htest, rfl⟩
      · rfl
    rw [listItems, if_neg, hitems]
    · rfl
    · intro htest
      simp only [Bool.and_eq_true, decide_eq_true_eq, beq_iff_eq] at htest
      obtain ⟨hlong, hfirst, hlast⟩ := htest
      obtain ⟨s, rfl⟩ := head?_eq_some_iff.1 hfirst
      obtain ⟨u, hu⟩ := getLast?_eq_some_iff.1 hlast
      cases u with
      | nil => simp at hu
      | cons c u =>
        cases hu
        refine hlist ⟨u, fun hnil => ?_, rfl⟩
        subst hnil
        exact absurd hlong (by decide)

theorem member_eq (t : Text) : member t = some (Condition.member? t) := by
  cases hcut : t.cutFolded? " in ".toList with
  | none =>
    have hfind : t.findFolded? " in ".toList = none := by rw [findFolded?, hcut]; rfl
    simp only [member, hfind, Condition.member?, hcut]
    rfl
  | some parts =>
    obtain ⟨before, rest⟩ := parts
    have hfind : t.findFolded? " in ".toList = some before.byteSize := by
      rw [findFolded?, hcut]
      rfl
    obtain ⟨m, rfl, hm⟩ := append_of_cutFolded? hcut
    have hsize : m.byteSize = 4 := by
      rw [← byteSize_toLowerAscii, hm]
      decide
    obtain ⟨htake, hdrop⟩ := bytes_around before m rest hsize
    simp only [member, hfind, Condition.member?, hcut, htake, hdrop, operand_eq, listItems_eq,
      bind_eq_bind, bind_some]
    rfl

theorem evalPrimitive_eq (t : Text) : evalPrimitive t = some (Condition.evalPrimitive t) := by
  simp only [evalPrimitive, Condition.evalPrimitive, compare_eq, member_eq, bind_eq_bind, bind_some]
  cases Condition.constant? t.trim with
  | some value => rfl
  | none =>
    cases Condition.compare? "==".toList t.trim with
    | some equal => rfl
    | none =>
      cases (Condition.compare? "!=".toList t.trim).or (Condition.compare? "<>".toList t.trim)
      all_goals rfl

theorem evalFlat_eq (t : Text) : evalFlat t = some (Condition.evalFlat t) := by
  simp only [evalFlat, Condition.evalFlat, evalPrimitive_eq, mapM_eq_some evalPrimitive_eq,
    bind_eq_bind, bind_some, List.all_map, List.any_map, Function.id_comp]
  split
  · rfl
  · split <;> rfl

theorem endsInMembership_iff : Condition.endsInMembership before ↔
    ∃ (front : Text) (i n : Char), before.trimEnd = front ++ [i, n] ∧
      eqFolded [i, n] "in".toList ∧ front.getLast?.all isBlank := by
  rw [trimEnd, Condition.endsInMembership]
  split
  · rename_i n i front hdrop
    rw [Bool.and_eq_true, hdrop]
    constructor
    · rintro ⟨hword, hblank⟩
      exact ⟨front.reverse, i, n, by simp, hword, by simpa using hblank⟩
    · rintro ⟨front', i', n', heq, hword, hblank⟩
      rw [reverse_eq_iff] at heq
      obtain ⟨rfl, rfl, rfl⟩ : n = n' ∧ i = i' ∧ front = front'.reverse := by simpa using heq
      exact ⟨hword, by simpa using hblank⟩
  · rename_i hshort
    refine ⟨fun h => absurd h (by decide), ?_⟩
    rintro ⟨front', i', n', heq, -⟩
    rw [reverse_eq_iff] at heq
    exact absurd heq (by simpa using hshort n' i' front'.reverse)

/-- The word is two bytes long in any case. -/
theorem byteSize_of_eqFolded {word : Text} (h : eqFolded word "in".toList) :
    ∃ i n, word = [i, n] ∧ word.byteSize = 2 := by
  obtain ⟨i, n, rfl, hi, hn⟩ := Condition.eq_pair_of_spelled ((eq_of_beq h).trans (by decide))
  refine ⟨i, n, rfl, ?_⟩
  have hi' := utf8Size_toLower i
  have hn' := utf8Size_toLower n
  rw [hi] at hi'
  rw [hn] at hn'
  rw [byteSize_cons, byteSize_cons, byteSize_nil, ← hi', ← hn']
  rfl

/-- The text up to a place ends in the word if the characters before the place do. -/
theorem precededByIn_append (before after : Text) {place : Nat} (h : before.byteSize = place) :
    precededByIn (before ++ after) place = some (Condition.endsInMembership before) := by
  subst h
  rw [precededByIn, takeBytes?_append, bind_eq_bind, bind_some]
  by_cases hends : Condition.endsInMembership before
  · rw [hends]
    obtain ⟨front, i, n, hword, hin, hblank⟩ := endsInMembership_iff.1 hends
    obtain ⟨-, -, -, hsize⟩ := byteSize_of_eqFolded hin
    have hminus : minus? before.trimEnd.byteSize 2 = some front.byteSize := by
      rw [hword, byteSize_append, hsize, minus?_of_le (by omega), Nat.add_sub_cancel]
    have hdrop : before.trimEnd.dropBytes? front.byteSize = some [i, n] := by
      rw [hword, dropBytes?_append]
    have htake : before.trimEnd.takeBytes? front.byteSize = some front := by
      rw [hword, takeBytes?_append]
    simp only [hminus, hdrop, htake, isNone_some, Bool.false_eq_true, if_false,
      bind_some, hin, hblank, Bool.and_self]
    rfl
  · rw [Bool.not_eq_true] at hends
    rw [hends]
    cases hminus : minus? before.trimEnd.byteSize 2 with
    | none =>
      simp only [hminus]
      rfl
    | some place =>
      cases hdrop : before.trimEnd.dropBytes? place with
      | none =>
        simp only [hminus, hdrop, isNone_none, if_true]
        rfl
      | some word =>
        obtain ⟨front, htext, hsize⟩ := dropBytes?_eq_some_iff.1 hdrop
        have htake : before.trimEnd.takeBytes? place = some front := by
          rw [htext, ← hsize, takeBytes?_append]
        have hnot : (eqFolded word "in".toList && front.getLast?.all isBlank) = false := by
          rw [← Bool.not_eq_true, Bool.and_eq_true]
          rintro ⟨hin, hblank⟩
          obtain ⟨i, n, rfl, -⟩ := byteSize_of_eqFolded hin
          rw [endsInMembership_iff.2 ⟨front, i, n, htext, hin, hblank⟩] at hends
          exact absurd hends (by decide)
        simp only [hminus, htake, hdrop, isNone_some, Bool.false_eq_true, if_false, bind_some, hnot]
        rfl

/-! ## Groups -/

/-- A computation that may fail, and one that gives its result if it has one. -/
theorem toOption_bind {ε : Type} (x : Except ε α) (f : α → Except ε β) :
    (x >>= f).toOption = x.toOption >>= fun a => (f a).toOption := by
  cases x <;> rfl

theorem toOption_slice (t : Text) (start stop : Nat) :
    (t.slice start stop).toOption = t.slice? start stop := by
  rw [slice]
  cases t.slice? start stop <;> rfl

theorem toOption_sliceTo (t : Text) (stop : Nat) :
    (t.sliceTo stop).toOption = t.takeBytes? stop := by
  rw [sliceTo]
  cases t.takeBytes? stop <;> rfl

theorem toOption_sliceFrom (t : Text) (start : Nat) :
    (t.sliceFrom start).toOption = t.dropBytes? start := by
  rw [sliceFrom]
  cases t.dropBytes? start <;> rfl

theorem toOption_get (spans : SpanSet) (index : Nat) :
    (spans.get index).toOption = spans[index]? := by
  rw [SpanSet.get]
  cases spans[index]? <;> rfl

theorem splice_eq (spans : SpanSet) (t : Text) (target source : Extent) :
    splice spans t target source = (spans.splice t target source).toOption := by
  simp only [SpanSet.splice, toOption_bind, toOption_slice, toOption_sliceTo, toOption_sliceFrom,
    splice]
  cases hdrop : t.dropBytes? target.stop with
  | none =>
    simp only [bind_eq_bind, bind_none, bind_fun_none]
  | some after =>
    obtain ⟨before, rfl, hstop⟩ := dropBytes?_eq_some_iff.1 hdrop
    have hminus : minus? (before ++ after).byteSize target.size =
        some ((before ++ after).byteSize - target.size) := by
      apply minus?_of_le
      rw [byteSize_append, Extent.size]
      omega
    simp only [hminus, bind_eq_bind, bind_some]
    rfl

/-- A span that ends with the start of the text has nothing between its delimiters. -/
theorem inner_eq (span : Span) : inner span = some span.inner ∨
    inner span = none ∧ ∀ t : Text, t.slice? span.inner.start span.inner.stop = none := by
  by_cases h : 1 ≤ span.stop
  · exact .inl (by rw [inner, minus?_of_le h]; rfl)
  · refine .inr ⟨by rw [inner, show minus? span.stop 1 = none from if_neg h]; rfl, fun t => ?_⟩
    simp only [slice?, Span.inner]
    exact if_neg (by omega)

theorem slice?_inner (t : Text) (span : Span) (f : Text → Option β) :
    (do let extent ← inner span; let body ← t.slice? extent.start extent.stop; f body) =
      (t.slice? span.inner.start span.inner.stop >>= f) := by
  rcases inner_eq span with h | ⟨h, hslice⟩
  · rw [h]
    rfl
  · rw [h, hslice t]
    rfl

theorem splice_inner (spans : SpanSet) (t : Text) (target : Extent) (span : Span) :
    (do let source ← inner span; splice spans t target source) =
      (spans.splice t target span.inner).toOption := by
  rw [← splice_eq]
  rcases inner_eq span with h | ⟨h, hslice⟩
  · rw [h]
    rfl
  · rw [h, splice, hslice t]
    rfl

theorem foldGroup_eq (state : Text × SpanSet) (index : Nat) :
    foldGroup state index = (Condition.foldGroup state index).toOption := by
  obtain ⟨t, groups⟩ := state
  simp only [foldGroup, Condition.foldGroup, toOption_bind, toOption_get, slice?_inner]
  cases groups[index]? with
  | none => rfl
  | some group =>
    simp only [bind_eq_bind, bind_some]
    cases group.valid with
    | false => rfl
    | true =>
      simp only [Bool.not_true, Bool.false_eq_true, if_false, toOption_bind, toOption_sliceTo]
      cases htake : t.takeBytes? group.start with
      | none => simp only [precededByIn, htake, bind_eq_bind, bind_none]
      | some before =>
        obtain ⟨after, rfl, hstart⟩ := takeBytes?_eq_some_iff.1 htake
        simp only [precededByIn_append before after hstart, bind_eq_bind, bind_some]
        cases Condition.endsInMembership before with
        | true => rfl
        | false =>
          simp only [Bool.false_eq_true, if_false, toOption_bind, toOption_slice,
            toOption_sliceFrom, evalFlat_eq, splice_eq, bind_eq_bind, bind_some]

theorem foldlM_eq {ε : Type} {f : β → α → Option β} {g : β → α → Except ε β}
    (h : ∀ b a, f b a = (g b a).toOption) (l : List α) (b : β) :
    l.foldlM f b = (l.foldlM g b).toOption := by
  induction l generalizing b with
  | nil => rfl
  | cons a l ih =>
    rw [foldlM_cons, foldlM_cons, toOption_bind, h]
    simp only [ih]

theorem evalExtended_eq (t : Text) : evalExtended t = (Condition.evalExtended t).toOption := by
  simp only [evalExtended, Condition.evalExtended, toOption_bind, ← foldlM_eq foldGroup_eq,
    evalFlat_eq]
  rfl

theorem evalLegacy_eq (t : Text) : evalLegacy t = some (Condition.evalLegacy t) := by
  simp only [evalLegacy, Condition.evalLegacy, compare_eq, bind_eq_bind, bind_some]
  split
  · rfl
  · cases Condition.compare? "==".toList t.trim with
    | some equal => rfl
    | none => cases Condition.compare? "!=".toList t.trim <;> rfl

theorem eval_eq (grammar : Grammar) (t : Text) :
    eval grammar t = (Condition.eval grammar t).toOption := by
  cases grammar with
  | legacy => exact evalLegacy_eq t
  | extended => exact evalExtended_eq t

/-! ## Branches -/

theorem resolveIn_eq (grammar : Grammar) (state : Text × SpanSet) (branch : Branch) :
    resolveIn grammar state branch = (Branch.resolveIn grammar state branch).toOption := by
  obtain ⟨t, spans⟩ := state
  simp only [resolveIn, Branch.resolveIn, Branch.isValid, toOption_bind, toOption_get, slice?_inner]
  cases hcondition : spans[branch.condition]? with
  | none => rfl
  | some condition =>
    cases hifTrue : spans[branch.ifTrue]? with
    | none => rfl
    | some ifTrue =>
      cases hlast : spans[branch.last]? with
      | none => rfl
      | some last =>
        simp only [bind_eq_bind, bind_some]
        cases hvalid : condition.valid && ifTrue.valid && last.valid with
        | false => rfl
        | true =>
          have hextent : branch.extent spans = .ok ⟨condition.start, last.stop⟩ := by
            rw [Branch.extent, get_eq_ok hcondition, get_eq_ok hlast]
            rfl
          have hpure : (pure true : Except Error Bool).toOption = some true := rfl
          simp only [hpure, Bool.not_true, Bool.false_eq_true, if_false, if_true, bind_some,
            hextent, get_eq_ok hcondition, ok_bind, toOption_bind, toOption_slice, eval_eq,
            bind_eq_bind]
          refine bind_congr fun body _ => bind_congr fun holds _ => ?_
          cases if holds then some branch.ifTrue else branch.ifFalse with
          | none => exact splice_eq _ _ _ _
          | some index =>
            simp only [toOption_bind, toOption_get, bind_eq_bind]
            exact bind_congr fun chosen _ => splice_inner spans t _ chosen

/-! ## Linking -/

section Link

variable {t : Text} {spans : SpanSet} {later : List (Span × Nat)} {mark : Char}

theorem separated_eq {a b : Span × Nat} (ha : spans[a.2]? = some a.1) (hb : spans[b.2]? = some b.1)
    (hplace : t.IsPlace a.1.stop) {body : Text}
    (hbody : t.slice? b.1.start b.1.stop = some ('\x7b' :: (body ++ ['\x7d']))) :
    separated t spans mark a.2 b.2 = some (separates t mark a.1 b.1) := by
  simp only [separated, ha, hb, bind_eq_bind, bind_some, separates]
  by_cases hlt : b.1.start < a.1.stop
  · have hnone : t.slice? a.1.stop b.1.start = none := by rw [slice?, if_neg (by omega)]
    rw [if_pos hlt, hnone]
    rfl
  · obtain ⟨gap, hgap⟩ := exists_slice?_of_isPlace hplace (isPlace_of_slice? hbody).1 (by omega)
    rw [if_neg hlt, hgap]
    rfl

theorem firstSeparated_eq {entry : Span × Nat} (hentry : spans[entry.2]? = some entry.1)
    (hplace : t.IsPlace entry.1.stop) (hmark : IsMark mark) (hlater : Numbered t spans later) :
    firstSeparated t spans mark entry.2 (later.map Prod.snd) =
      ((firstSeparated? t mark entry.1 later).toOption).map fun found =>
        found.map fun next => (next.1.2, next.2.map Prod.snd) := by
  induction later with
  | nil =>
    rw [firstSeparated?_nil hmark hplace]
    rfl
  | cons next later ih =>
    obtain ⟨⟨hnext, body, hbody⟩, hlater⟩ := forall_mem_cons.1 hlater
    rw [firstSeparated?_cons hmark hplace hbody, map_cons, firstSeparated,
      separated_eq hentry hnext hplace hbody]
    cases separates t mark entry.1 next.1 with
    | true => rfl
    | false => exact ih hlater

theorem linkFrom_eq (h : Branch.Numbered t spans later) :
    linkFrom t spans (later.map Prod.snd) = (Branch.linkFrom t later).toOption := by
  induction later with
  | nil => rfl
  | cons entry later ih =>
    obtain ⟨⟨hspan, -⟩, hlater⟩ := forall_mem_cons.1 h
    have hplace := h.isPlace_stop mem_cons_self
    obtain ⟨found, hfound, -, hsep⟩ := exists_firstSeparated? isMark_question hplace hlater
    rw [map_cons, linkFrom, firstSeparated_eq hspan hplace isMark_question hlater, hfound]
    cases found with
    | none =>
      simp only [Branch.linkFrom, hfound, ok_bind]
      exact ih hlater
    | some found =>
      obtain ⟨next, rest⟩ := found
      obtain ⟨-, skipped, rfl⟩ := hsep _ _ rfl
      obtain ⟨-, hrest⟩ := forall_mem_append.1 hlater
      obtain ⟨⟨hnext, -⟩, hrest'⟩ := forall_mem_cons.1 hrest
      have hnextPlace := Branch.Numbered.isPlace_stop hrest mem_cons_self
      obtain ⟨other, hother, -⟩ := exists_firstSeparated? isMark_colon hnextPlace hrest'
      have hfirst : firstSeparated t spans ':' next.2 (rest.map Prod.snd) =
          some (other.map fun last => (last.1.2, last.2.map Prod.snd)) := by
        rw [firstSeparated_eq hnext hnextPlace isMark_colon hrest', hother]
        rfl
      rw [linkFrom_cons hfound hother]
      simp only [Except.toOption, map_some, bind_eq_bind, bind_some, hfirst, ih hlater,
        Option.map_map]
      cases Branch.linkFrom t (skipped ++ next :: rest) <;> rfl

end Link

theorem resolve_eq (grammar : Grammar) (t : Text) :
    resolve grammar t = (Branch.resolve grammar t).toOption := by
  have hlink : linkFrom t (braces t) ((braces t).zipIdx.map Prod.snd) = _ :=
    linkFrom_eq (Branch.numbered_numberedFrom t 0)
  rw [zipIdx_map_snd, ← range_eq_range'] at hlink
  simp only [resolve, Branch.resolve, Branch.link, toOption_bind, hlink,
    foldlM_eq (resolveIn_eq grammar)]
  rfl

/-! ## Parameters -/

section Parameters

variable {values : Parameters} {t : Text}

/-- The name is the longest one that starts the text. -/
structure Longest (values : Parameters) (t name value rest : Text) : Prop where
  ne_nil : name ≠ []
  text : t = name ++ rest
  value : values.get? name = some value
  longest : ∀ entry ∈ values, entry.1 <+: t → entry.1.byteSize ≤ name.byteSize

/-- No name starts the text. -/
def NoName (values : Parameters) (t : Text) : Prop :=
  ∀ entry ∈ values, entry.1 = [] ∨ ¬ entry.1 <+: t

/-- Of two fronts of one text, the one with the shorter rest is the larger. -/
theorem byteSize_le_of_length_le {a b a' b' : Text} (h : a ++ b = a' ++ b')
    (hle : b'.length ≤ b.length) : a.byteSize ≤ a'.byteSize := by
  rcases append_eq_append_iff.1 h with ⟨m, rfl, -⟩ | ⟨m, rfl, rfl⟩
  · simp
  · obtain rfl : m = [] := length_eq_zero_iff.1 (by rw [length_append] at hle; omega)
    simp

theorem longestMatch?_spec (values : Parameters) (t : Text) :
    Parameters.longestMatch? t values = none ∧ NoName values t ∨
    ∃ name value rest, Parameters.longestMatch? t values = some (value, rest) ∧
      Longest values t name value rest := by
  induction values with
  | nil => exact .inl ⟨rfl, by simp [NoName]⟩
  | cons entry values ih =>
    obtain ⟨name, value⟩ := entry
    have hpass : ∀ {name' value' rest' : Text}, name' ≠ name → Longest values t name' value' rest' →
        (name <+: t → name.byteSize ≤ name'.byteSize) →
        Longest ((name, value) :: values) t name' value' rest' := by
      intro name' value' rest' hne h hle
      refine ⟨h.ne_nil, h.text, ?_, forall_mem_cons.2 ⟨hle, h.longest⟩⟩
      rw [Parameters.get?, lookup_cons, beq_eq_false_iff_ne.2 hne]
      exact h.value
    by_cases hname : name ≠ [] ∧ name <+: t
    · obtain ⟨hne, rest, rfl⟩ := hname
      have htest : (if name.isEmpty then none else strip? (name ++ rest) name) =
          some rest := by
        rw [if_neg (by simpa using hne), strip?_append]
      have hself : (∀ entry ∈ values, entry.1 <+: name ++ rest → entry.1.byteSize ≤ name.byteSize) →
          Longest ((name, value) :: values) (name ++ rest) name value rest := fun hle =>
        ⟨hne, rfl, by rw [Parameters.get?, lookup_cons, beq_self_eq_true],
          forall_mem_cons.2 ⟨fun _ => Nat.le_refl _, hle⟩⟩
      rcases ih with ⟨hnone, hno⟩ | ⟨name', value', rest', hsome, hlong⟩
      · refine .inr ⟨name, value, rest, ?_, hself fun entry hmem hpre => ?_⟩
        · simp only [Parameters.longestMatch?, htest, hnone]
        · rcases hno entry hmem with hnil | hnot
          · simp [hnil]
          · exact absurd hpre hnot
      · by_cases hlt : rest'.length < rest.length
        · refine .inr ⟨name', value', rest', ?_, hpass ?_ hlong fun _ =>
            byteSize_le_of_length_le hlong.text (Nat.le_of_lt hlt)⟩
          · simp only [Parameters.longestMatch?, htest, hsome, if_pos hlt]
          · rintro rfl
            rw [append_cancel_left hlong.text] at hlt
            omega
        · refine .inr ⟨name, value, rest, ?_, hself fun entry hmem hpre => ?_⟩
          · simp only [Parameters.longestMatch?, htest, hsome, if_neg hlt]
          · exact Nat.le_trans (hlong.longest entry hmem hpre)
              (byteSize_le_of_length_le hlong.text.symm (Nat.le_of_not_lt hlt))
    · have htest : (if name.isEmpty then none else strip? t name) = none := by
        split
        · rfl
        · rename_i hne
          exact strip?_eq_none_iff.2 fun hpre => hname ⟨by simpa using hne, hpre⟩
      have hskip : Parameters.longestMatch? t ((name, value) :: values) =
          Parameters.longestMatch? t values := by
        simp only [Parameters.longestMatch?, htest]
      rw [hskip]
      rcases ih with ⟨hnone, hno⟩ | ⟨name', value', rest', hsome, hlong⟩
      · refine .inl ⟨hnone, forall_mem_cons.2 ⟨?_, hno⟩⟩
        exact Decidable.or_iff_not_imp_left.2 fun hne hpre => hname ⟨hne, hpre⟩
      · refine .inr ⟨name', value', rest', hsome, hpass ?_ hlong fun hpre => ?_⟩
        · rintro rfl
          exact hname ⟨hlong.ne_nil, rest', hlong.text.symm⟩
        · obtain rfl : name = [] := Decidable.byContradiction fun hne => hname ⟨hne, hpre⟩
          simp

theorem mem_names {name : Text} :
    name ∈ names values ↔ name ≠ [] ∧ ∃ entry ∈ values, entry.1 = name := by
  simp [names, and_comm]

theorem pairwise_names (values : Parameters) :
    (names values).Pairwise fun a b => b.byteSize ≤ a.byteSize := by
  have hsorted : (names values).Pairwise fun a b => decide (b.byteSize ≤ a.byteSize) :=
    pairwise_mergeSort (fun a b c hab hbc => by simp only [decide_eq_true_eq] at *; omega)
      (fun a b => by simp only [Bool.or_eq_true, decide_eq_true_eq]; omega) _
  exact hsorted.imp fun h => by simpa using h

/-- The first of the sorted names that starts the text is the longest one. -/
theorem find?_names {name value : Text} (h : Longest values t name value rest) :
    (names values).find? (fun name => (t.strip? name).isSome) = some name := by
  have hmem : name ∈ names values := by
    rw [mem_names]
    obtain ⟨front, back, hvalues, -⟩ := lookup_eq_some_iff.1 h.value
    exact ⟨h.ne_nil, (name, value), by simp [hvalues], rfl⟩
  have hself : (t.strip? name).isSome := by
    rw [h.text, strip?_append, isSome_some]
  cases hfind : (names values).find? fun name => (t.strip? name).isSome with
  | none => exact absurd hself (find?_eq_none.1 hfind name hmem)
  | some found =>
    obtain ⟨hstrip, front, back, hnames, hfront⟩ := find?_eq_some_iff_append.1 hfind
    obtain ⟨rest', hrest⟩ := isSome_iff_exists.1 hstrip
    have htext := append_of_strip? hrest
    have hin : found ∈ names values := mem_of_find?_eq_some hfind
    obtain ⟨-, entry, hentry, rfl⟩ := mem_names.1 hin
    have hle := h.longest entry hentry ⟨rest', htext⟩
    have hge : name.byteSize ≤ entry.1.byteSize := by
      have hsorted := pairwise_names values
      rw [hnames] at hmem hsorted
      rcases mem_append.1 hmem with hmem | hmem
      · exact absurd hself (by simpa using hfront name hmem)
      · rcases mem_cons.1 hmem with rfl | hmem
        · exact Nat.le_refl _
        · exact (pairwise_cons.1 (pairwise_append.1 hsorted).2.1).1 name hmem
    rw [(append_inj_of_byteSize_eq (htext.trans h.text) (Nat.le_antisymm hle hge)).1]

theorem find?_names_eq_none (h : NoName values t) :
    (names values).find? (fun name => (t.strip? name).isSome) = none := by
  rw [find?_eq_none]
  intro name hmem
  obtain ⟨hne, entry, hentry, rfl⟩ := mem_names.1 hmem
  rcases h entry hentry with hnil | hnot
  · exact absurd hnil hne
  · rw [strip?_eq_none_iff.2 hnot]
    simp

theorem substitute_char (h : c ≠ '@') (t : Text) :
    values.substitute (c :: t) = c :: values.substitute t := by
  rw [Parameters.substitute, if_neg (by simpa using h)]

/-- What stands before the first reference stays as it is. -/
theorem substitute_append (h : '@' ∉ before) (rest : Text) :
    values.substitute (before ++ rest) = before ++ values.substitute rest := by
  induction before with
  | nil => rfl
  | cons c before ih =>
    rw [mem_cons, not_or] at h
    rw [cons_append, substitute_char (Ne.symm h.1), ih h.2, cons_append]

theorem substitute_of_notMem (h : '@' ∉ t) : values.substitute t = t := by
  have hnil : values.substitute (t ++ []) = t ++ values.substitute [] := substitute_append h []
  rwa [Parameters.substitute, append_nil] at hnil

theorem substitute_reference {value : Text}
    (h : Parameters.longestMatch? t values = some (value, rest)) :
    values.substitute ('@' :: t) = value ++ values.substitute rest := by
  rw [Parameters.substitute, if_pos (by decide)]
  split
  · rename_i value' rest' h'
    cases h.symm.trans h'
    rfl
  · rename_i h'
    exact absurd (h.symm.trans h') (by simp)

theorem substitute_unknown (h : Parameters.longestMatch? t values = none) :
    values.substitute ('@' :: t) = '@' :: values.substitute t := by
  rw [Parameters.substitute, if_pos (by decide)]
  split
  · rename_i h'
    exact absurd (h.symm.trans h') (by simp)
  · rfl

theorem substituteFrom_eq (values : Parameters) {fuel : Nat} {t : Text} (h : t.length < fuel) :
    substituteFrom values fuel t = some (values.substitute t) := by
  induction fuel generalizing t with
  | zero => omega
  | succ fuel ih =>
    cases hcut : t.cut? ['@'] with
    | none =>
      have hnot : '@' ∉ t := fun hmem => by
        obtain ⟨front, back, rfl⟩ := append_of_mem hmem
        exact cut?_eq_none_iff.1 hcut ⟨front, back, by simp⟩
      simp only [substituteFrom, find?, hcut, map_none, substitute_of_notMem hnot]
      rfl
    | some parts =>
      obtain ⟨before, after⟩ := parts
      have hnot : '@' ∉ before := fun hmem => by
        obtain ⟨front, back, rfl⟩ := append_of_mem hmem
        exact not_infix_of_cut? (by simp) hcut ⟨front, back, by simp⟩
      obtain rfl := append_of_cut? hcut
      obtain ⟨htake, hdrop⟩ := bytes_around before ['@'] after (show _ = 1 from rfl)
      rw [length_append, length_append, length_singleton] at h
      have hplace : find? (before ++ (['@'] ++ after)) ['@'] = some before.byteSize := by
        rw [find?, hcut, map_some]
      simp only [substituteFrom, hplace, htake, hdrop, bind_eq_bind, bind_some]
      rw [substitute_append hnot, singleton_append]
      rcases longestMatch?_spec values after with ⟨hnone, hno⟩ | ⟨name, value, rest, hsome, hlong⟩
      · simp only [find?_names_eq_none hno, ih (show after.length < fuel by omega),
          bind_some, substitute_unknown hnone]
        rfl
      · have hrest : after.dropBytes? name.byteSize = some rest := by
          rw [hlong.text, dropBytes?_append]
        have hlength := Parameters.length_le_of_longestMatch? hsome
        simp only [find?_names hlong, hlong.value, hrest, ih (show rest.length < fuel by omega),
          bind_some, substitute_reference hsome]
        rfl

end Parameters

/-! ## Templates -/

theorem declared_eq (body : Text) : declared body = some (Default.declared? body) := by
  cases hcut : body.cut? ['='] with
  | none =>
    simp only [declared, Default.declared?, hcut]
    rfl
  | some parts =>
    simp only [declared, Default.declared?, hcut, unquote_eq]
    split
    · rename_i hname
      simpa using hname
    · rename_i hname
      simpa using hname

theorem render_eq (grammar : Grammar) (template : Text) (parameters : Parameters) :
    render grammar template parameters =
      (SqlScript.render grammar template parameters).toOption := by
  simp only [render, mapM_eq_some declared_eq, bind_eq_bind, bind_some,
    substituteFrom_eq _ (Nat.lt_succ_self _), resolve_eq, SqlScript.render, Default.extract,
    filterMap_map, Function.id_comp]

end ByOffset

/-! ## Rendering always succeeds -/

/-- Each branch is reached, and it is gone from the text by then or its parts have their braces. -/
def Branch.AllBraced (grammar : Grammar) (t : Text) : Prop :=
  ∃ branches, link t (find '\x7b' '\x7d' t) = .ok branches ∧
    ∀ front branch back, branches = front ++ branch :: back → ∃ t' spans,
      front.foldlM (resolveIn grammar) (t, find '\x7b' '\x7d' t) = .ok (t', spans) ∧
      branch.Braced t' spans

/-- Each group is reached, and it is gone from the text by then or has its parentheses. -/
def Condition.AllEnclosed (t : Text) : Prop :=
  ∀ i < (find '(' ')' t).length, ∃ t' groups group,
    (range i).foldlM foldGroup (t, find '(' ')' t) = .ok (t', groups) ∧
    groups.get i = .ok group ∧ (group.valid = true → ∃ body, group.Encloses '(' ')' t' body)

/-- Every template renders to a text, by characters and by offsets. Whatever text its branches are
resolved in, each branch that is visited still has its braces, and each group of a condition that is
visited still has its parentheses. -/
theorem exists_render (grammar : Grammar) (template : Text) (parameters : Parameters) :
    (∃ out, render grammar template parameters = .ok out ∧
      ByOffset.render grammar template parameters = some out) ∧
    (∀ t, Branch.AllBraced grammar t) ∧ ∀ t, Condition.AllEnclosed t := by
  refine ⟨?_, fun t => ?_, fun t i hi => Condition.exists_groups_reach t hi⟩
  · obtain ⟨out, hrender⟩ : ∃ out, render grammar template parameters = .ok out :=
      Branch.exists_resolve grammar _
    exact ⟨out, hrender, by rw [ByOffset.render_eq, hrender]; rfl⟩
  · obtain ⟨branches, hlink, hready⟩ := Branch.exists_link t
    exact ⟨branches, hlink, fun front branch back hparts =>
      Branch.exists_branches_reach grammar hready (SpanSet.truthful_find _ _ t) hparts⟩

end SqlScript
