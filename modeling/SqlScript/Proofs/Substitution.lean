import Mathlib.Data.List.Infix
import SqlScript.Proofs.ByOffset
import SqlScript.Proofs.Expression
import SqlScript.Proofs.Pairing

/-!
# A group can be replaced by its value

The groups of a condition are folded from the inside out, in a text whose spans are moved along. The
same comes out of one pass from left to right (`Condition.Progress.step`), which folds a group at
the parenthesis that closes it and knows nothing of the text to come (`Condition.evalExtended_eq`).

So two conditions have the same value if the pass reaches the same state in both, whatever follows.
A group that is balanced leaves the pass in the state that its digit leaves it in, as long as the
word `in` stands neither before the group nor at its start (`Condition.eval_group_substitution`).
What decides is whether the word `in` stands before a parenthesis, and that is not changed by
folding what stands before the word (`Condition.endsInMembership_scan`).
-/

namespace SqlScript

open List Text Nest Progress

variable {c d : Char} {N : Nest} {p t x y : Text}

namespace Text

/-- Blanks around a text play no role for what is left when it is trimmed. -/
theorem trim_blank_append {q : Text} (hp : Blank p) (hq : Blank q) (x : Text) :
    trim (p ++ (x ++ q)) = trim x := by
  have hend : ∀ y, trimEnd (y ++ q) = trimEnd y := by
    intro y
    rw [trimEnd, trimEnd, reverse_append, dropWhile_append_of_pos hq.reverse]
  rw [trim, trim, trimStart, trimStart, dropWhile_append_of_pos hp, dropWhile_append]
  split
  · rename_i hempty
    rw [List.isEmpty_iff.1 hempty, ← hend []]
    have hblank := trimEnd_of_blank hq
    have hnil : (q ++ []).dropWhile isBlank = [] := dropWhile_append_of_pos hq
    rw [append_nil] at hnil
    rw [hnil, nil_append, hblank]
    rfl
  · exact hend _

/-- No front of the text closes more parentheses than it opens, and the text closes all. -/
def Balanced (t : Text) : Prop :=
  (∀ front, front <+: t → front.count ')' ≤ front.count '(') ∧ t.count '(' = t.count ')'

instance (t : Text) : Decidable t.Balanced :=
  decidable_of_iff ((∀ front ∈ t.inits, front.count ')' ≤ front.count '(') ∧
    t.count '(' = t.count ')') (by simp only [Balanced, mem_inits])

end Text

namespace Condition

/-! ## The end of what stands before a group -/

/-- The character is neither a blank nor a letter of the word `in`. -/
def Wall (c : Char) : Prop :=
  isBlank c = false ∧ c.toLower ≠ 'i' ∧ c.toLower ≠ 'n'

/-- Whether the text, read from its end, starts with the word `in`. -/
def startsMembershipBack (r : Text) : Bool :=
  match r with
  | n :: i :: before => eqFolded [i, n] ['i', 'n'] && before.head?.all isBlank
  | _ => false

theorem endsInMembership_eq (t : Text) :
    endsInMembership t = startsMembershipBack t.trimEnd.reverse := by
  rw [trimEnd, reverse_reverse]
  rfl

theorem eqFolded_pair {i n : Char} (h : i.toLower ≠ 'i' ∨ n.toLower ≠ 'n') :
    eqFolded [i, n] ['i', 'n'] = false := by
  have hi : 'i'.toLower = 'i' := by decide
  have hn : 'n'.toLower = 'n' := by decide
  simp only [eqFolded, toLowerAscii, map_cons, map_nil, hi, hn]
  rw [beq_eq_false_iff_ne]
  intro heq
  obtain ⟨hi', hn'⟩ : i.toLower = 'i' ∧ n.toLower = 'n' := by simpa using heq
  exact h.elim (fun h => h hi') (fun h => h hn')

theorem startsMembershipBack_wall (hc : Wall c) (hd : Wall d) (r x y : Text) :
    startsMembershipBack (r ++ c :: x) = startsMembershipBack (r ++ d :: y) := by
  obtain ⟨hc, hci, hcn⟩ := hc
  obtain ⟨hd, hdi, hdn⟩ := hd
  rcases r with - | ⟨n, - | ⟨i, - | ⟨b, r⟩⟩⟩
  · have hshort : ∀ {a : Char} (z : Text), a.toLower ≠ 'n' →
        startsMembershipBack (a :: z) = false := by
      intro a z ha
      cases z with
      | nil => rfl
      | cons b z => simp [startsMembershipBack, eqFolded_pair (.inr ha)]
    rw [nil_append, nil_append, hshort x hcn, hshort y hdn]
  · simp [startsMembershipBack, eqFolded_pair (.inl hci), eqFolded_pair (.inl hdi)]
  · simp [startsMembershipBack, hc, hd]
  · rfl

/-- What stands before a wall plays no role. -/
theorem endsInMembership_wall (hc : Wall c) (hd : Wall d) (x y more : Text) :
    endsInMembership (x ++ c :: more) = endsInMembership (y ++ d :: more) := by
  rw [endsInMembership_eq, endsInMembership_eq, trimEnd_append_cons x hc.1,
    trimEnd_append_cons y hd.1]
  simpa using startsMembershipBack_wall hc hd more.trimEnd.reverse x.reverse y.reverse

/-- Blanks at the start play no role. -/
theorem endsInMembership_blank_append (hp : p.Blank) (x : Text) :
    endsInMembership (p ++ x) = endsInMembership x := by
  obtain ⟨gap, hgap, hx⟩ := exists_append_trimEnd x
  rw [endsInMembership_eq, endsInMembership_eq]
  rcases trimEnd_eq_nil_or x with hnil | ⟨rest, c, hrest, hc⟩
  · rw [hnil, nil_append] at hx
    rw [hnil, trimEnd_of_blank (hp.append (hx ▸ hgap))]
  · have htrim : (p ++ x).trimEnd = p ++ (rest ++ [c]) := by
      have := trimEnd_append_cons (p ++ rest) hc gap
      rw [trimEnd_of_blank hgap] at this
      rw [hx, hrest]
      simpa using this
    rw [htrim, hrest]
    have hlastBlank : p.getLast?.all isBlank := by
      rw [Option.all_eq_true]
      exact fun b hb => hp b (mem_of_getLast? hb)
    rcases hback : rest.reverse with - | ⟨i, - | ⟨b, back⟩⟩
    · cases hlast : p.reverse with
      | nil => simp [hback, hlast]
      | cons b back =>
        have hb : isBlank b := hp b (mem_reverse.1 (by rw [hlast]; simp))
        have hi : b.toLower ≠ 'i' := by
          rw [toLower_eq_self_of_isBlank hb]
          rintro rfl
          exact absurd hb (by decide)
        simp [hback, hlast, startsMembershipBack, eqFolded_pair (.inl hi)]
    · simp [hback, startsMembershipBack, hlastBlank]
    · simp [hback, startsMembershipBack]

/-- Nothing that is written behind the two texts tells them apart. -/
def SameEnd (x y : Text) : Prop :=
  ∀ more, endsInMembership (x ++ more) = endsInMembership (y ++ more)

theorem SameEnd.append (h : SameEnd x y) (z : Text) : SameEnd (x ++ z) (y ++ z) := by
  intro more
  rw [append_assoc, append_assoc]
  exact h _

theorem SameEnd.endsInMembership_eq (h : SameEnd x y) :
    endsInMembership x = endsInMembership y := by
  simpa using h []

theorem sameEnd_wall (hc : Wall c) (hd : Wall d) (x y : Text) : SameEnd (x ++ [c]) (y ++ [d]) := by
  intro more
  simpa using endsInMembership_wall hc hd x y more

theorem wall_open : Wall '(' := by
  refine ⟨?_, ?_, ?_⟩ <;> decide

theorem wall_close : Wall ')' := by
  refine ⟨?_, ?_, ?_⟩ <;> decide

theorem wall_digit (value : Bool) : Wall (digit value) := by
  cases value <;> refine ⟨?_, ?_, ?_⟩ <;> decide

/-! ## Folding in one context and in another -/

/-- Folding depends on what stands before only through its end. -/
theorem fold_congr (h : SameEnd x y) (N : Nest) : fold x N = fold y N := by
  induction N generalizing x y with
  | nil => rfl
  | char c rest ih => rw [fold, fold, ih (h.append [c])]
  | group inner rest ihi ihr =>
    have hshown : foldedGroup x (fold (x ++ ['(']) inner) =
        foldedGroup y (fold (y ++ ['(']) inner) := by
      rw [foldedGroup, foldedGroup, h.endsInMembership_eq, ihi (h.append ['('])]
    rw [fold, fold, hshown, ihr (h.append _)]

/-- What a group is folded to is a wall. -/
theorem sameEnd_foldedGroup (x y before body : Text) :
    SameEnd (x ++ foldedGroup before body) (y ++ foldedGroup before body) := by
  unfold foldedGroup
  split
  · have := sameEnd_wall wall_close wall_close (x ++ '(' :: body) (y ++ '(' :: body)
    simpa using this
  · exact sameEnd_wall (wall_digit _) (wall_digit _) x y

/-- The text starts with the word `in`, in any case, and a parenthesis behind it. -/
def StartsMembership (t : Text) : Prop :=
  ∃ word gap rest : Text, t = word ++ (gap ++ '(' :: rest) ∧
    word.toLowerAscii = "in".toList ∧ gap.Blank

theorem not_startsMembership (h : c.toLower ≠ 'i') (t : Text) : ¬StartsMembership (c :: t) := by
  rintro ⟨word, gap, rest, heq, hword, -⟩
  obtain ⟨i, n, rfl, hi, -⟩ := eq_pair_of_spelled hword
  obtain rfl : c = i := (List.cons.inj heq).1
  exact h hi

/-- The word `in` is only told from the end of a longer word by what stands before it. -/
theorem endsInMembership_open (V : Text)
    (h : ∀ word gap : Text, x = word ++ gap → gap.Blank → word.toLowerAscii ≠ "in".toList) :
    endsInMembership (V ++ '(' :: x) = endsInMembership x := by
  obtain ⟨gap, hgap, hx⟩ := exists_append_trimEnd x
  rw [endsInMembership_eq, endsInMembership_eq, trimEnd_append_cons V wall_open.1]
  rcases hback : x.trimEnd.reverse with - | ⟨n, - | ⟨i, - | ⟨b, back⟩⟩⟩
  · have hwall : startsMembershipBack ([] ++ '(' :: V.reverse) = startsMembershipBack [] :=
      startsMembershipBack_wall wall_open wall_open [] V.reverse []
    simpa [hback] using hwall
  · simp [hback, startsMembershipBack, eqFolded_pair (.inl wall_open.2.1)]
  · have hword : eqFolded [i, n] ['i', 'n'] = false := by
      rw [← Bool.not_eq_true]
      intro hword
      have htrim : x.trimEnd = [i, n] := by simpa using congrArg List.reverse hback
      exact h [i, n] gap (by rw [hx, htrim]) hgap (eq_of_beq hword)
    simp [hback, startsMembershipBack, hword]
  · simp [hback, startsMembershipBack]

/-- A nest is folded the same inside of a group as alone, unless it starts with the word `in` and a
group. -/
theorem fold_open (V : Text)
    (h : ¬StartsMembership (x ++ N.text '(' ')')) : fold (V ++ '(' :: x) N = fold x N := by
  induction N generalizing x with
  | nil => rfl
  | char c rest ih =>
    have hrest := ih (x := x ++ [c]) (by simpa [text] using h)
    rw [fold, fold, append_assoc, cons_append, hrest]
  | group inner rest _ _ =>
    -- behind the parenthesis of the group the two contexts cannot be told apart
    have hinner : fold (V ++ '(' :: x ++ ['(']) inner = fold (x ++ ['(']) inner :=
      fold_congr (sameEnd_wall wall_open wall_open _ _) inner
    have hends : endsInMembership (V ++ '(' :: x) = endsInMembership x := by
      refine endsInMembership_open V fun word gap hx hgap hword => h ?_
      exact ⟨word, gap, inner.text '(' ')' ++ ')' :: rest.text '(' ')',
        by rw [hx, text, append_assoc], hword, hgap⟩
    have hshown : foldedGroup (V ++ '(' :: x) (fold (V ++ '(' :: x ++ ['(']) inner) =
        foldedGroup x (fold (x ++ ['(']) inner) := by
      rw [hinner, foldedGroup, foldedGroup, hends]
    rw [fold, fold, hshown, fold_congr (sameEnd_foldedGroup _ _ _ _) rest]

/-! ## One pass from left to right -/

/-- How far a condition is read : the folded text before each of the parentheses that are open, the
last one first, and the folded text behind the last of them. -/
structure Progress where
  outer : List Text
  inner : Text

namespace Progress

/-- The folded text before `inner`, with the parentheses that are open. -/
def join : List Text → Text → Text
  | [], inner => inner
  | before :: outer, inner => join outer before ++ '(' :: inner

/-- All of the folded text. -/
def text (p : Progress) : Text :=
  join p.outer p.inner

/-- Reads one character. A group is folded when it closes. -/
def step (p : Progress) (c : Char) : Progress :=
  if c == '(' then ⟨p.inner :: p.outer, []⟩
  else if c == ')' then
    match p.outer with
    | [] => ⟨[], p.inner ++ [c]⟩
    | before :: outer => ⟨outer, before ++ foldedGroup (join outer before) p.inner⟩
  else ⟨p.outer, p.inner ++ [c]⟩

/-- Reads a text. -/
def scan (p : Progress) (t : Text) : Progress :=
  t.foldl step p

theorem join_append (outer : List Text) (inner x : Text) :
    join outer (inner ++ x) = join outer inner ++ x := by
  cases outer with
  | nil => rfl
  | cons before outer => simp [join]

theorem step_plain (p : Progress) (ho : c ≠ '(') (hc : c ≠ ')') :
    p.step c = ⟨p.outer, p.inner ++ [c]⟩ := by
  simp [step, ho, hc]

theorem step_open (p : Progress) : p.step '(' = ⟨p.inner :: p.outer, []⟩ :=
  rfl

theorem step_close (before : Text) (outer : List Text) (inner : Text) :
    step ⟨before :: outer, inner⟩ ')' = ⟨outer, before ++ foldedGroup (join outer before) inner⟩ :=
  rfl

theorem step_close_alone (inner : Text) : step ⟨[], inner⟩ ')' = ⟨[], inner ++ [')']⟩ :=
  rfl

theorem scan_append (p : Progress) (a b : Text) : p.scan (a ++ b) = (p.scan a).scan b :=
  foldl_append

theorem scan_cons (p : Progress) (c : Char) (t : Text) : p.scan (c :: t) = (p.step c).scan t :=
  rfl

theorem scan_plain (p : Progress) (h : ∀ c ∈ t, c ≠ '(' ∧ c ≠ ')') :
    p.scan t = ⟨p.outer, p.inner ++ t⟩ := by
  induction t generalizing p with
  | nil => simp [scan]
  | cons c t ih =>
    obtain ⟨hc, hrest⟩ := forall_mem_cons.1 h
    rw [scan_cons, step_plain p hc.1 hc.2, ih _ hrest]
    simp

/-- A nest in which every parenthesis has its partner is folded where it stands. -/
theorem scan_nest (p : Progress) (hN : N.Clean '(' ')') :
    p.scan (N.text '(' ')') = ⟨p.outer, p.inner ++ fold p.text N⟩ := by
  obtain ⟨outer, inner⟩ := p
  induction N generalizing outer inner with
  | nil => simp [Nest.text, scan, fold]
  | char c rest ih =>
    obtain ⟨ho, hc, hrest⟩ := hN
    rw [Nest.text, scan_cons, step_plain _ ho hc, ih hrest]
    simp [fold, text, join_append]
  | group first rest ihi ihr =>
    rw [Nest.text, scan_cons, step_open, scan_append, ihi hN.1, scan_cons, step_close, ihr hN.2]
    simp [fold, text, join, join_append]

/-- What comes out of reading the nests with the closing parentheses between them. -/
def readText (outer : List Text) (inner : Text) (front : Nest) : List Nest → Text
  | [] => join outer inner ++ fold (join outer inner) front
  | next :: later =>
    let inner := inner ++ fold (join outer inner) front
    match outer with
    | [] => readText [] (inner ++ [')']) next later
    | before :: outer =>
      readText outer (before ++ foldedGroup (join outer before) inner) next later

theorem readText_char (outer : List Text) (inner : Text) (c : Char) (front : Nest)
    (later : List Nest) :
    readText outer inner (.char c front) later = readText outer (inner ++ [c]) front later := by
  cases later with
  | nil => simp [readText, fold, join_append]
  | cons next later => cases outer <;> simp [readText, fold, join]

theorem readText_group (outer : List Text) (inner : Text) (front next : Nest)
    (later : List Nest) : readText outer inner (.group front next) later =
      readText (inner :: outer) [] front (next :: later) := by
  cases later with
  | nil => simp [readText, fold, join_append, join]
  | cons other later => cases outer <;> simp [readText, fold, join]

theorem text_scan_read (outer : List Text) (inner t : Text) :
    (scan ⟨outer, inner⟩ t).text =
      readText outer inner (Nest.read '(' ')' t).1 (Nest.read '(' ')' t).2 := by
  induction t generalizing outer inner with
  | nil => simp [scan, text, Nest.read, readText, fold]
  | cons c t ih =>
    rw [scan_cons]
    simp only [Nest.read]
    split
    · rename_i ho
      obtain rfl := eq_of_beq ho
      rw [step_open, ih]
      split
      · rename_i front hread
        rw [hread, readText_char]
        simp [readText, join, join_append]
      · rename_i front next later hread
        rw [hread, readText_group]
    · rename_i ho
      split
      · rename_i hc
        obtain rfl := eq_of_beq hc
        cases outer with
        | nil => rw [step_close_alone, ih]; simp [readText, fold]
        | cons before outer => rw [step_close, ih]; simp [readText, fold]
      · rename_i hc
        rw [step_plain _ (by simpa using ho) (by simpa using hc), ih, readText_char]

theorem readText_nil (inner : Text) (front : Nest) (later : List Nest) :
    readText [] inner front later = inner ++ fold inner (glue ')' front later) := by
  induction later generalizing inner front with
  | nil => rfl
  | cons next later ih => simp [readText, glue, ih, fold_append, fold, join]

/-- One pass folds every group of a text. -/
theorem text_scan (inner t : Text) :
    (scan ⟨[], inner⟩ t).text = inner ++ fold inner (ofText '(' ')' t) := by
  rw [text_scan_read, readText_nil, ofText]

/-- Folding what is read does not change whether the word `in` stands at its end. -/
theorem sameEnd_step {p : Progress} (h : SameEnd p.text t) (c : Char) :
    SameEnd (p.step c).text (t ++ [c]) := by
  obtain ⟨outer, inner⟩ := p
  by_cases ho : c = '('
  · subst ho
    exact h.append ['(']
  · by_cases hc : c = ')'
    · subst hc
      cases outer with
      | nil => exact h.append [')']
      | cons before outer =>
        rw [step_close, text, join_append]
        unfold foldedGroup
        split
        · have hsame := h.append [')']
          simpa [text, join] using hsame
        · exact sameEnd_wall (wall_digit _) wall_close _ _
    · rw [step_plain _ ho hc, text, join_append]
      exact h.append [c]

theorem sameEnd_scan {p : Progress} {u : Text} (h : SameEnd p.text u) (t : Text) :
    SameEnd (p.scan t).text (u ++ t) := by
  induction t generalizing p u with
  | nil => simpa [scan] using h
  | cons c t ih => simpa [scan_cons] using ih (sameEnd_step h c)

end Progress

/-- Where reading starts. -/
def start : Progress :=
  ⟨[], []⟩

theorem endsInMembership_scan (t : Text) :
    endsInMembership (start.scan t).text = endsInMembership t :=
  (Progress.sameEnd_scan (p := start) (u := []) (fun _ => rfl) t).endsInMembership_eq

theorem evalFlat_blank_append {q : Text} (hp : p.Blank) (hq : q.Blank) (x : Text) :
    evalFlat (p ++ (x ++ q)) = evalFlat x := by
  rw [evalFlat, evalFlat, trim_blank_append hp hq]

theorem not_paren_of_blank (h : t.Blank) : ∀ c ∈ t, c ≠ '(' ∧ c ≠ ')' := by
  intro c hc
  have hblank := h c hc
  constructor
  · rintro rfl
    exact absurd hblank (by decide)
  · rintro rfl
    exact absurd hblank (by decide)

/-- The value of a condition is that of the text which one pass leaves. -/
theorem evalExtended_eq (t : Text) : evalExtended t = .ok (evalFlat (start.scan t).text) := by
  obtain ⟨p, q, hp, hq, ht⟩ := Text.exists_append_trim t
  rw [evalExtended_of_spans (Nest.text_ofText t.trim) (Nest.find_eq_spans t.trim)]
  have hfold : fold p (Nest.ofText '(' ')' t.trim) = fold [] (Nest.ofText '(' ')' t.trim) :=
    fold_congr (fun more => endsInMembership_blank_append hp more) _
  have hpass : (start.scan t).text = p ++ (fold [] (Nest.ofText '(' ')' t.trim) ++ q) := by
    have hread := Progress.text_scan p t.trim
    conv_lhs => rw [ht]
    rw [Progress.scan_append, Progress.scan_plain start (not_paren_of_blank hp),
      Progress.scan_append, Progress.scan_plain _ (not_paren_of_blank hq), Progress.text,
      Progress.join_append, ← append_assoc, ← hfold, ← hread]
    rfl
  rw [hpass, evalFlat_blank_append hp hq]

end Condition

/-! ## Balanced texts -/

/-- A balanced text is the text of a nest in which every parenthesis has its partner. -/
theorem Text.Balanced.exists_nest (h : t.Balanced) :
    ∃ N : Nest, N.Clean '(' ')' ∧ N.text '(' ')' = t :=
  BalancedBy.exists_nest ⟨h.1, h.2⟩ (by decide)

namespace Condition

/-- The text without its trailing blanks ends in the word `in`, in any case, and the word stands at
the start or after a blank. -/
def EndsMembership (t : Text) : Prop :=
  ∃ front word : Text, t.trimEnd = front ++ word ∧ word.toLowerAscii = "in".toList ∧
    ∀ c, front.getLast? = some c → isBlank c = true

theorem endsMembership_iff : EndsMembership t ↔ endsInMembership t := by
  rw [ByOffset.endsInMembership_iff]
  constructor
  · rintro ⟨front, word, htext, hword, hblank⟩
    obtain ⟨i, n, rfl, -⟩ := eq_pair_of_spelled hword
    refine ⟨front, i, n, htext, ?_, (Option.all_eq_true _ _).2 hblank⟩
    rw [eqFolded, hword]
    decide
  · rintro ⟨front, i, n, htext, hword, hblank⟩
    exact ⟨front, [i, n], htext, (eq_of_beq hword).trans (by decide),
      (Option.all_eq_true _ _).1 hblank⟩

/-- Reading a balanced group leads where reading its value leads. -/
theorem Progress.scan_group (p : Progress) (hN : N.Clean '(' ')')
    (hend : endsInMembership p.text = false) (hstart : ¬StartsMembership (N.text '(' ')')) :
    ((p.step '(').scan (N.text '(' ')')).step ')' = p.step (digit (evalFlat (fold [] N))) := by
  have hopen : digit (evalFlat (fold [] N)) ≠ '(' := by
    cases evalFlat (fold [] N) <;> decide
  have hclose : digit (evalFlat (fold [] N)) ≠ ')' := by
    cases evalFlat (fold [] N) <;> decide
  have hfold : fold (p.text ++ ['(']) N = fold [] N := fold_open p.text hstart
  rw [step_plain p hopen hclose, step_open, scan_nest _ hN]
  have htext : text ⟨p.inner :: p.outer, []⟩ = p.text ++ ['('] := rfl
  rw [htext, hfold, nil_append, step_close, foldedGroup, ← text, hend]
  rfl

/-- A balanced group that does not start with the word `in` can be replaced by its value wherever
the word does not stand before it, whatever else stands before and after it. -/
theorem eval_group_substitution {pre e post : Text} (hbalanced : e.Balanced)
    (hpre : ¬EndsMembership pre) (he : ¬StartsMembership e) :
    ∃ value result, eval .extended e = .ok value ∧
      eval .extended (pre ++ '(' :: (e ++ ')' :: post)) = .ok result ∧
      eval .extended (pre ++ digit value :: post) = .ok result := by
  obtain ⟨N, hN, rfl⟩ := hbalanced.exists_nest
  have hend : endsInMembership (start.scan pre).text = false := by
    rw [endsInMembership_scan, ← Bool.not_eq_true, ← endsMembership_iff]
    exact hpre
  have hvalue : (start.scan (N.text '(' ')')).text = fold [] N := by
    rw [Progress.scan_nest start hN]
    rfl
  refine ⟨_, _, evalExtended_eq _, evalExtended_eq _, ?_⟩
  rw [eval, evalExtended_eq, hvalue]
  simp only [Progress.scan_append, Progress.scan_cons]
  rw [Progress.scan_group _ hN hend he]

/-- A group behind a parenthesis that is never closed, before another group and a list. -/
theorem eval_group_substitution_beside :
    Text.Balanced "a == a & (0)".toList ∧ ¬EndsMembership "(b | x in (1) & ".toList ∧
      ¬StartsMembership "a == a & (0)".toList ∧ ∃ value result,
        eval .extended "a == a & (0)".toList = .ok value ∧
        eval .extended ("(b | x in (1) & ".toList ++
          '(' :: ("a == a & (0)".toList ++ ')' :: "(1) in (0)".toList)) = .ok result ∧
        eval .extended ("(b | x in (1) & ".toList ++ digit value :: "(1) in (0)".toList) =
          .ok result := by
  have hbalanced : Text.Balanced "a == a & (0)".toList := by decide
  have hpre : ¬EndsMembership "(b | x in (1) & ".toList := by
    rw [endsMembership_iff]
    decide
  have he : ¬StartsMembership "a == a & (0)".toList := not_startsMembership (by decide) _
  exact ⟨hbalanced, hpre, he, eval_group_substitution hbalanced hpre he⟩

end Condition

end SqlScript
