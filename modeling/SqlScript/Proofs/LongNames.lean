import SqlScript.Identifier
import SqlScript.Proofs.SortedTexts

/-!
# Names that are too long, statement by statement

A name and the words before it are read without reading past a `;` (`Identifier.StopsAt`), and
behind a `;` a verb is found as at the start of a text. So the names in two statements are those in
the first and those in the second (`Identifier.tempNames_append`, `Identifier.tableNames_append`).

The warnings are about sets of names, in order, so those about a script are told by the sets of
names in its statements, in whatever order and however often the statements come
(`longNameWarnings_statements`).
-/

namespace SqlScript

open List

namespace Identifier

/-! ## Reading up to the end of a statement -/

section

variable {c : Char} {α : Type} {extend : Text → α → α}

/-- What is read does not depend on the character and what follows it, and is extended by them. -/
def StopsAt (c : Char) (extend : Text → α → α) (read : Text → Option α) : Prop :=
  ∀ t s, read (t ++ c :: s) = (read t).map (extend (c :: s))

/-- What follows is extended at its end. -/
def extendRest (s rest : Text) : Text :=
  rest ++ s

theorem StopsAt.bind {first : Text → Option Text} {next : Text → Option α}
    (hfirst : StopsAt c extendRest first) (hnext : StopsAt c extend next) :
    StopsAt c extend fun t => (first t).bind next := by
  intro t s
  dsimp only
  rw [hfirst t s]
  cases first t with
  | none => rfl
  | some rest => exact hnext rest s

theorem StopsAt.or {first other : Text → Option α} (hfirst : StopsAt c extend first)
    (hother : StopsAt c extend other) : StopsAt c extend fun t => (first t).or (other t) := by
  intro t s
  dsimp only
  rw [hfirst t s, hother t s]
  cases first t <;> rfl

theorem takeWhile_append_cons {p : Char → Bool} (hc : p c = false) (t s : Text) :
    (t ++ c :: s).takeWhile p = t.takeWhile p ∧
      (t ++ c :: s).dropWhile p = t.dropWhile p ++ c :: s := by
  induction t with
  | nil => simp [hc]
  | cons d t ih => cases hd : p d <;> simp [hd, ih]

theorem stopsAt_stripFolded? (lead : Text) (h : c.toLower ∉ lead.toLowerAscii) :
    StopsAt c extendRest (Text.stripFolded? · lead) := by
  intro t s
  induction lead generalizing t with
  | nil => rfl
  | cons p lead ih =>
    obtain ⟨hp, hlead⟩ := not_or.1 (mt mem_cons.2 h)
    cases t with
    | nil => simp [Text.stripFolded?, Text.stripBy?, Ne.symm hp]
    | cons d t =>
      simp only [cons_append, Text.stripFolded?, Text.stripBy?]
      split
      · exact ih hlead t
      · rfl

theorem stopsAt_skipSome? {p : Char → Bool} (hc : p c = false) :
    StopsAt c extendRest (skipSome? p) := by
  intro t s
  cases t with
  | nil => simp [skipSome?, hc]
  | cons d t =>
    simp only [cons_append, skipSome?, (takeWhile_append_cons hc t s).2]
    split <;> rfl

end

theorem stopsAt_tableName? : StopsAt ';' (Prod.map id ∘ extendRest) tableName? := by
  have hverb := (stopsAt_stripFolded? (c := ';') "create".toList (by decide)).or
    ((stopsAt_stripFolded? "drop".toList (by decide)).or
      (stopsAt_stripFolded? "truncate".toList (by decide)))
  refine hverb.bind ((stopsAt_skipSome? (by decide)).bind
    ((stopsAt_stripFolded? "table".toList (by decide)).bind
      ((stopsAt_skipSome? (by decide)).bind fun t s => ?_)))
  have hclass : isTableChar ';' = false := by decide
  rw [stopsAt_skipSome? hclass t s, (takeWhile_append_cons hclass t s).1]
  cases skipSome? isTableChar t <;> rfl

theorem tempNames_append (t s : Text) : tempNames (t ++ ';' :: s) = tempNames t ++ tempNames s := by
  have hrun := takeWhile_append_cons (by decide : isTempChar ';' = false)
  fun_induction tempNames t with
  | case1 =>
    rw [nil_append, tempNames]
    simp
  | case2 c t run h ih =>
    rw [cons_append, tempNames, (hrun t s).1, (hrun t s).2, ih]
    exact if_pos h
  | case3 c t run h ih =>
    rw [cons_append, tempNames, (hrun t s).1, ih]
    exact if_neg h

/-- A text behind a character that is in no word is read as one that nothing stands before. -/
theorem tableNames_some {c : Char} (h : Regex.isWord c = false) (t : Text) :
    tableNames (some c) t = tableNames none t := by
  cases t with
  | nil => rw [tableNames, tableNames]
  | cons d t =>
    rw [tableNames, tableNames, Option.any_some, h]
    rfl

theorem tableNames_append (before : Option Char) (t s : Text) :
    tableNames before (t ++ ';' :: s) = tableNames before t ++ tableNames none s := by
  have hread : ∀ (before : Option Char) (t : Text),
      (if before.any Regex.isWord then none else tableName? (t ++ ';' :: s)) =
        (if before.any Regex.isWord then none else tableName? t).map
          (Prod.map id (extendRest (';' :: s))) := by
    intro before t
    split
    · rfl
    · exact stopsAt_tableName? t s
  fun_induction tableNames before t with
  | case1 before =>
    have hnone := hread before []
    rw [show tableName? [] = none from rfl, ite_self, nil_append] at hnone
    rw [nil_append, tableNames, hnone]
    exact tableNames_some (by decide +kernel) s
  | case2 before c rest name after hfound hlt ih =>
    have hsome := hread before (c :: rest)
    rw [dite_eq_ite] at hfound
    rw [hfound, cons_append] at hsome
    rw [cons_append, tableNames, hsome]
    exact (if_pos (by simp [extendRest]; omega)).trans (congrArg (name :: ·) ih)
  | case3 before c rest name after hfound hlt ih =>
    have hsome := hread before (c :: rest)
    rw [dite_eq_ite] at hfound
    rw [hfound, cons_append] at hsome
    rw [cons_append, tableNames, hsome]
    exact (if_neg (by simp [extendRest]; omega)).trans ih
  | case4 before c rest hnone ih =>
    have hsome := hread before (c :: rest)
    rw [dite_eq_ite] at hnone
    rw [hnone, cons_append] at hsome
    rw [cons_append, tableNames, hsome]
    exact ih

/-- The names in statements. -/
theorem names_intercalate {names : Text → List Text} (hnil : names [] = [])
    (happend : ∀ t s, names (t ++ ';' :: s) = names t ++ names s) (statements : List Text) :
    names ([';'].intercalate statements) = statements.flatMap names := by
  induction statements with
  | nil => exact hnil
  | cons t statements ih =>
    cases statements with
    | nil => simp
    | cons s statements =>
      rw [intercalate_cons_cons, append_assoc, flatMap_cons, ← ih]
      exact happend t _

theorem mem_tooLong {limit : Nat} {names : List Text} {name : Text} :
    name ∈ tooLong limit names ↔ name ∈ names ∧ limit < name.byteSize := by
  simp [tooLong]

/-- The warnings name the names. -/
theorem mem_longNameWarnings (sql name : Text) :
    (tempWarning name ∈ longNameWarnings sql ↔ name ∈ tooLong tempLimit (tempNames sql)) ∧
    (tableWarning name ∈ longNameWarnings sql ↔
      name ∈ tooLong tableLimit (tableNames none sql)) := by
  have htemp : ∀ a, tempWarning a = tempWarning name ↔ a = name :=
    fun a => (append_left_inj _).trans (append_right_inj _)
  have htable : ∀ a, tableWarning a = tableWarning name ↔ a = name :=
    fun a => (append_left_inj _).trans (append_right_inj _)
  have hdiffer : ∀ a b, tempWarning a ≠ tableWarning b := by
    intro a b h
    have htake : (tempWarning a).take 2 = (tableWarning b).take 2 := congrArg (List.take 2) h
    unfold tempWarning tableWarning at htake
    rw [append_assoc, append_assoc, take_append_of_le_length (by decide),
      take_append_of_le_length (by decide)] at htake
    exact absurd htake (by decide)
  simp only [longNameWarnings, mem_append, mem_map, htemp, htable, hdiffer,
    (hdiffer _ _).symm, exists_eq_right, and_false, exists_false, or_false, false_or, and_self]

end Identifier

open Identifier

/-- The names that two statements are warned about are those of the first and those of the second,
in order and each once, the names of temporary tables first. So neither the order of statements nor
their number plays a role. -/
theorem longNameWarnings_statements :
    (∀ s₁ s₂ : Text, ∃ temps tables : List Text,
      longNameWarnings (s₁ ++ ';' :: s₂) = temps.map tempWarning ++ tables.map tableWarning ∧
      temps.Pairwise (· < ·) ∧ tables.Pairwise (· < ·) ∧
      (∀ name, name ∈ temps ↔ tempWarning name ∈ longNameWarnings s₁ ∨
        tempWarning name ∈ longNameWarnings s₂) ∧
      ∀ name, name ∈ tables ↔ tableWarning name ∈ longNameWarnings s₁ ∨
        tableWarning name ∈ longNameWarnings s₂) ∧
    ∀ statements statements' : List Text, (∀ s, s ∈ statements ↔ s ∈ statements') →
      longNameWarnings ([';'].intercalate statements) =
        longNameWarnings ([';'].intercalate statements') := by
  refine ⟨fun s₁ s₂ => ⟨_, _, rfl, Text.pairwise_sortedSet _, Text.pairwise_sortedSet _,
    fun name => ?_, fun name => ?_⟩, fun statements statements' h => ?_⟩
  · rw [(mem_longNameWarnings s₁ name).1, (mem_longNameWarnings s₂ name).1, mem_tooLong,
      mem_tooLong, mem_tooLong, tempNames_append, mem_append, or_and_right]
  · rw [(mem_longNameWarnings s₁ name).2, (mem_longNameWarnings s₂ name).2, mem_tooLong,
      mem_tooLong, mem_tooLong, tableNames_append, mem_append, or_and_right]
  · have hsame : ∀ (limit : Nat) (names : Text → List Text),
        tooLong limit (statements.flatMap names) = tooLong limit (statements'.flatMap names) :=
      fun limit names => Text.sortedSet_eq_of_mem_iff (by simp [h])
    rw [longNameWarnings, longNameWarnings]
    simp only [names_intercalate (by rw [tempNames]) tempNames_append,
      names_intercalate (by rw [tableNames]) (tableNames_append none), hsame]

/-- A statement that comes twice, and later. -/
theorem longNameWarnings_statements_repeated :
    let s : Text := "drop table t".toList
    let s' : Text := " select 1 into #a_name_of_23_characters".toList
    (∀ t, t ∈ [s, s', s] ↔ t ∈ [s', s]) ∧
      longNameWarnings ([';'].intercalate [s, s', s]) =
        longNameWarnings ([';'].intercalate [s', s]) := by
  intro s s'
  have hsame : ∀ t, t ∈ [s, s', s] ↔ t ∈ [s', s] := by
    intro t
    simp only [mem_cons, not_mem_nil]
    tauto
  exact ⟨hsame, longNameWarnings_statements.2 _ _ hsame⟩

end SqlScript
