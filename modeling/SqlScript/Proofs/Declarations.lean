import Mathlib.Data.List.Forall2
import SqlScript.Proofs.Search
import SqlScript.Proofs.Verbatim

/-!
# Templates by their declarations

A template with declarations is a text before the first one, and then for each declaration its body
and the text behind it (`Default.Sheet`). No such text holds the opening of a declaration, and no
body holds the brace that would close it; a body may hold further openings. `Sheet.print` writes
the template.

`Default.extract_print` is the converse. The declarations are taken out of the text, and each text
behind one loses the spaces and tabs at its start and at most one line break after them
(`Default.LineCut`). The defaults give each name the value of its last declaration, and hold no
other name. What a body declares is said by `Default.Declares`, apart from how it is taken apart.

Both results come from the one division of the text that `Default.segments` makes, so the proof is
an induction on the declarations : the opening of the next one is found where it was written, since
its first character occurs in it only once (`Text.cut?_of_not_infix`), and the blanks behind a
declaration end before the brace of the next (`Default.LineCut.dropLineEnd_append`).
-/

namespace SqlScript

open List Option Text

variable {values : Parameters} {body name rest t value : Text}

namespace Text

/-- The text is the other one without a pair of equal quote marks around it, if there is one. -/
def Unwrapped (t value : Text) : Prop :=
  (∃ mark, isQuoteMark mark = true ∧ t = mark :: (value ++ [mark])) ∨
    t = value ∧ ∀ mark inner, isQuoteMark mark = true → t ≠ mark :: (inner ++ [mark])

theorem unquote_eq_iff : t.unquote = value ↔ Unwrapped t value := by
  by_cases hwrapped : ∃ mark inner, isQuoteMark mark ∧ t = mark :: (inner ++ [mark])
  · obtain ⟨mark, inner, hmark, rfl⟩ := hwrapped
    rw [unquote_append hmark]
    constructor
    · rintro rfl
      exact .inl ⟨mark, hmark, rfl⟩
    · rintro (⟨mark', -, h⟩ | ⟨-, h⟩)
      · obtain ⟨rfl, h⟩ := cons.inj h
        exact append_cancel_right h
      · exact absurd rfl (h mark inner hmark)
  · have hsame : t.unquote = t := by
      cases t with
      | nil => rfl
      | cons c t =>
        rw [unquote, if_neg]
        intro h
        rw [Bool.and_eq_true, beq_iff_eq, getLast?_eq_some_iff] at h
        obtain ⟨hmark, inner, rfl⟩ := h
        exact hwrapped ⟨c, inner, hmark, rfl⟩
    rw [hsame]
    constructor
    · rintro rfl
      exact .inr ⟨rfl, fun mark inner hmark h => hwrapped ⟨mark, inner, hmark, h⟩⟩
    · rintro (⟨mark, hmark, h⟩ | ⟨h, -⟩)
      · exact absurd ⟨mark, value, hmark, h⟩ hwrapped
      · exact h

end Text

namespace Parameters

theorem nodup_insert (h : (values.map Prod.fst).Nodup) (name value : Text) :
    ((values.insert name value).map Prod.fst).Nodup := by
  rw [insert, map_cons, nodup_cons]
  refine ⟨by simp, h.sublist ((filter_sublist).map _)⟩

end Parameters

namespace Default

/-! ## What stands in a template -/

/-- The text `rest` is the other one without the spaces and tabs at its start and at most one line
break after them. -/
inductive LineCut : Text → Text → Prop
  | margin {c : Char} {t rest : Text} : c = ' ' ∨ c = '\t' → LineCut t rest → LineCut (c :: t) rest
  | newline (rest : Text) : LineCut ('\n' :: rest) rest
  | returned (rest : Text) : LineCut ('\r' :: '\n' :: rest) rest
  | other {t : Text} : (∀ c ∈ t.head?, c ≠ ' ' ∧ c ≠ '\t' ∧ c ≠ '\n') → ¬ ['\r', '\n'] <+: t →
    LineCut t t

/-- The body declares the value for the name : it is divided at its first equals sign, the name may
have an `@` before it, and the value may be quoted. -/
def Declares (body name value : Text) : Prop :=
  ∃ left right, body = left ++ '=' :: right ∧ '=' ∉ left ∧ name ≠ [] ∧
    (left.trim = '@' :: name ∨ left.trim = name ∧ name.head? ≠ some '@') ∧
    Unwrapped (Text.trim right) value

/-- A declaration by its body, and the text behind it. -/
structure Passage where
  body : Text
  text : Text
  closed : '\x7d' ∉ body
  plain : ¬ '\x7b' :: "DEFAULT ".toList <:+: text

/-- A template by its declarations : the text before the first of them, and the others. -/
structure Sheet where
  first : Text
  passages : List Passage
  plain : ¬ '\x7b' :: "DEFAULT ".toList <:+: first

/-- The declaration as it is written, and the text behind it. -/
def Passage.print (passage : Passage) : Text :=
  '\x7b' :: ("DEFAULT ".toList ++ (passage.body ++ '\x7d' :: passage.text))

/-- The template as it is written. -/
def Sheet.print (sheet : Sheet) : Text :=
  sheet.first ++ sheet.passages.flatMap Passage.print

/-- None of the passages declares the name. -/
def Undeclared (passages : List Passage) (name : Text) : Prop :=
  ∀ passage ∈ passages, ∀ value, ¬ Declares passage.body name value

/-- The last of the passages that declares the name gives it the value. -/
def LastDeclared (passages : List Passage) (name value : Text) : Prop :=
  ∃ front passage back, passages = front ++ passage :: back ∧ Declares passage.body name value ∧
    Undeclared back name

/-! ## Ends of lines -/

theorem dropLineEnd_margin {c : Char} (h : c = ' ' ∨ c = '\t') (t : Text) :
    dropLineEnd (c :: t) = dropLineEnd t := by
  rw [dropLineEnd, dropLineEnd, dropWhile_cons_of_pos (by simpa using h)]

/-- What follows a text does not change what is cut off at its start, if a brace is the first of
it. -/
theorem LineCut.dropLineEnd_append (h : LineCut t rest) {later : Text}
    (hlater : ∀ c ∈ later.head?, c = '\x7b') : dropLineEnd (t ++ later) = rest ++ later := by
  induction h with
  | margin hc _ ih => rw [cons_append, dropLineEnd_margin hc, ih]
  | newline rest => rfl
  | returned rest => rfl
  | @other t hfirst hpair =>
    cases t with
    | nil =>
      cases later with
      | nil => rfl
      | cons c later =>
        obtain rfl := hlater c rfl
        rfl
    | cons c t =>
      obtain ⟨hspace, htab, hnewline⟩ := hfirst c rfl
      rw [dropLineEnd, cons_append, dropWhile_cons_of_neg (by simp [hspace, htab])]
      split
      · rename_i h
        exact absurd (cons.inj h).1 hnewline
      · rename_i h
        obtain ⟨rfl, htail⟩ := cons.inj h
        cases t with
        | nil =>
          obtain rfl : later = '\n' :: _ := htail
          exact absurd (hlater '\n' rfl) (by decide)
        | cons d t =>
          cases htail
          exact absurd (by simp) hpair
      · rfl

theorem exists_lineCut (t : Text) : ∃ rest, LineCut t rest := by
  induction t with
  | nil => exact ⟨[], .other (by simp) (by simp)⟩
  | cons c t ih =>
    by_cases hmargin : c = ' ' ∨ c = '\t'
    · obtain ⟨rest, hcut⟩ := ih
      exact ⟨rest, .margin hmargin hcut⟩
    by_cases hnewline : c = '\n'
    · exact ⟨t, hnewline ▸ .newline t⟩
    by_cases hpair : ['\r', '\n'] <+: c :: t
    · obtain ⟨rest, hrest⟩ := hpair
      exact ⟨rest, hrest ▸ .returned rest⟩
    · rw [not_or] at hmargin
      exact ⟨c :: t, .other (by simp [hmargin, hnewline]) hpair⟩

theorem LineCut.suffix (h : LineCut t rest) : rest <:+ t := by
  induction h with
  | margin _ _ ih => exact ih.trans (suffix_cons _ _)
  | newline rest => exact suffix_cons _ _
  | returned rest => exact ⟨['\r', '\n'], rfl⟩
  | other => exact suffix_rfl

/-! ## The division of a template -/

theorem opening_eq : opening = '\x7b' :: "DEFAULT ".toList := by
  decide

theorem segments_passage {first : Text} (hfirst : ¬ opening <:+: first)
    (hbody : '\x7d' ∉ body) : segments (first ++ (opening ++ (body ++ '\x7d' :: rest))) =
      (first ++ (segments (dropLineEnd rest)).1, body :: (segments (dropLineEnd rest)).2) := by
  have hcut : cut? (first ++ (opening ++ (body ++ '\x7d' :: rest))) opening =
      some (first, body ++ '\x7d' :: rest) := by
    rw [opening_eq] at hfirst ⊢
    exact cut?_of_not_infix (by decide) hfirst _
  have hsplit : split? (first ++ (opening ++ (body ++ '\x7d' :: rest))) =
      some (first, body, rest) := by
    rw [split?, hcut]
    simp only [bind_eq_bind, bind_some, closing, cut?_singleton.2 ⟨rfl, hbody⟩]
    rfl
  rw [segments]
  split
  · rename_i hsome
    obtain ⟨rfl, rfl, rfl⟩ := by simpa using hsplit.symm.trans hsome
    rfl
  · rename_i hnone
    simp [hsplit] at hnone

/-- The text is divided at its declarations. -/
theorem segments_print {first : Text} (hfirst : ¬ opening <:+: first) (passages : List Passage) :
    ∃ kept, Forall₂ (fun (passage : Passage) => LineCut passage.text) passages kept ∧
      segments (first ++ passages.flatMap Passage.print) =
        (first ++ kept.flatten, passages.map Passage.body) := by
  induction passages generalizing first with
  | nil =>
    exact ⟨[], .nil, by simpa using segments_of_not_infix hfirst⟩
  | cons passage passages ih =>
    obtain ⟨rest, hcut⟩ := exists_lineCut passage.text
    have hplain : ¬ opening <:+: rest := fun hin =>
      passage.plain (opening_eq ▸ hin.trans hcut.suffix.isInfix)
    obtain ⟨kept, hkept, hsegments⟩ := ih hplain
    refine ⟨rest :: kept, .cons hcut hkept, ?_⟩
    have hnext : ∀ c ∈ (passages.flatMap Passage.print).head?, c = '\x7b' := by
      cases passages with
      | nil => simp
      | cons next passages =>
        intro c hc
        exact (Option.some.inj hc).symm
    have hwhole : first ++ (passage :: passages).flatMap Passage.print =
        first ++ (opening ++ (passage.body ++
          '\x7d' :: (passage.text ++ passages.flatMap Passage.print))) := by
      simp only [flatMap_cons, Passage.print, opening_eq, append_assoc, cons_append]
    rw [hwhole, segments_passage hfirst passage.closed, hcut.dropLineEnd_append hnext, hsegments]
    simp

/-! ## The defaults -/

theorem declared?_eq_some_iff : declared? body = some (name, value) ↔ Declares body name value := by
  have hname : ∀ left : Text, ((strip? left ['@']).getD left = name) ↔
      left = '@' :: name ∨ left = name ∧ name.head? ≠ some '@' := by
    intro left
    by_cases hmark : ∃ rest, left = '@' :: rest
    · obtain ⟨rest, rfl⟩ := hmark
      have hstrip : strip? ('@' :: rest) ['@'] = some rest := strip?_append ['@'] rest
      rw [hstrip, getD_some, cons_inj_right]
      refine ⟨.inl, ?_⟩
      rintro (h | ⟨rfl, h⟩)
      · exact h
      · exact absurd rfl h
    · have hstrip : strip? left ['@'] = none := by
        rw [strip?_eq_none_iff]
        rintro ⟨rest, rfl⟩
        exact hmark ⟨rest, rfl⟩
      rw [hstrip, getD_none]
      constructor
      · rintro rfl
        refine .inr ⟨rfl, fun hhead => hmark ?_⟩
        exact ⟨left.tail, (cons_head?_tail hhead).symm⟩
      · rintro (rfl | ⟨h, -⟩)
        · exact absurd ⟨name, rfl⟩ hmark
        · exact h
  simp only [declared?, bind_eq_bind, bind_eq_some_iff, Prod.exists, cut?_singleton, Declares]
  refine exists_congr fun left => exists_congr fun right => ?_
  rw [and_assoc, ← hname, ← unquote_eq_iff]
  constructor
  · rintro ⟨hbody, hleft, hvalue⟩
    split at hvalue
    · cases hvalue
    · rename_i hne
      cases hvalue
      exact ⟨hbody, hleft, by simpa using hne, rfl, rfl⟩
  · rintro ⟨hbody, hleft, hne, rfl, rfl⟩
    exact ⟨hbody, hleft, if_neg (by simpa using hne)⟩

theorem lastDeclared_cons {passage : Passage} {passages : List Passage} :
    LastDeclared (passage :: passages) name value ↔ LastDeclared passages name value ∨
      Declares passage.body name value ∧ Undeclared passages name := by
  constructor
  · rintro ⟨front, last, back, hparts, hlast, hback⟩
    cases front with
    | nil =>
      cases hparts
      exact .inr ⟨hlast, hback⟩
    | cons first front => exact .inl ⟨front, last, back, (cons.inj hparts).2, hlast, hback⟩
  · rintro (⟨front, last, back, rfl, hlast⟩ | ⟨hfirst, hlater⟩)
    · exact ⟨passage :: front, last, back, rfl, hlast⟩
    · exact ⟨[], passage, passages, rfl, hfirst, hlater⟩

/-- The values after a declaration. -/
def record (values : Parameters) (body : Text) : Parameters :=
  ((declared? body).map fun entry => values.insert entry.1 entry.2).getD values

theorem get?_record :
    (record values body).get? name = some value ↔ Declares body name value ∨
      (∀ value', ¬ Declares body name value') ∧ values.get? name = some value := by
  simp only [← declared?_eq_some_iff]
  cases hdeclared : declared? body with
  | none => simp [record, hdeclared]
  | some entry =>
    obtain ⟨name', value'⟩ := entry
    simp only [record, hdeclared, map_some, getD_some, Parameters.get?_insert]
    by_cases hname : name = name'
    · simp [hname]
    · simp [hname, Ne.symm hname]

/-- The value of a name is that of its last declaration, or else the one it had before. -/
theorem get?_foldl_record {passages : List Passage} :
    ((passages.map Passage.body).foldl record values).get? name = some value ↔
      LastDeclared passages name value ∨
        Undeclared passages name ∧ values.get? name = some value := by
  induction passages generalizing values with
  | nil => simp [LastDeclared, Undeclared]
  | cons passage passages ih =>
    have hfirst : Undeclared (passage :: passages) name ↔
        (∀ value', ¬ Declares passage.body name value') ∧ Undeclared passages name :=
      forall_mem_cons
    rw [map_cons, foldl_cons, ih, get?_record, lastDeclared_cons, hfirst]
    tauto

theorem nodup_foldl_record {bodies : List Text}
    (h : (values.map Prod.fst).Nodup) : ((bodies.foldl record values).map Prod.fst).Nodup := by
  induction bodies generalizing values with
  | nil => exact h
  | cons body bodies ih =>
    rw [foldl_cons]
    refine ih ?_
    cases hdeclared : declared? body with
    | none => simpa [record, hdeclared] using h
    | some entry => simpa [record, hdeclared] using Parameters.nodup_insert h entry.1 entry.2

theorem extract_eq (t : Text) : extract t = ((segments t).1, (segments t).2.foldl record []) := by
  have hfold : ∀ (bodies : List Text) (values : Parameters), (bodies.filterMap declared?).foldl
      (fun values entry => values.insert entry.1 entry.2) values = bodies.foldl record values := by
    intro bodies
    induction bodies with
    | nil => exact fun _ => rfl
    | cons body bodies ih =>
      intro values
      rw [filterMap_cons, foldl_cons, ← ih, record]
      cases declared? body <;> rfl
  exact Prod.ext rfl (hfold _ _)

/-- Of a template its texts are left, each behind a declaration without the end of the line it
starts with, and the defaults are the values that the last declarations of the names give. -/
theorem extract_print (sheet : Sheet) : ∃ kept defaults,
    extract sheet.print = (sheet.first ++ kept.flatten, defaults) ∧
    List.Forall₂ (fun (passage : Passage) => LineCut passage.text) sheet.passages kept ∧
    (defaults.map Prod.fst).Nodup ∧
    ∀ name value, defaults.get? name = some value ↔ LastDeclared sheet.passages name value := by
  obtain ⟨kept, hkept, hsegments⟩ := segments_print (opening_eq ▸ sheet.plain) sheet.passages
  refine ⟨kept, (sheet.passages.map Passage.body).foldl record [], ?_, hkept, ?_, ?_⟩
  · rw [extract_eq, Sheet.print, hsegments]
  · exact nodup_foldl_record (by simp)
  · intro name value
    rw [get?_foldl_record]
    simp [Parameters.get?]

example : extract "a\x7bDEFAULT @x=1\x7d\t\n\n\x7bDEFAULT x = '\x7bDEFAULT '\x7d b".toList =
    ("a\nb".toList, [("x".toList, "\x7bDEFAULT ".toList)]) := by decide +kernel

end Default

end SqlScript
