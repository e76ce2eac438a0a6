import Mathlib.Data.Char
import Mathlib.Data.List.Lex
import SqlScript.Text.Basic

/-!
# Texts in order

A text is put into a sorted list at its place, and only if it is not there. So `Text.sortedSet` is
in order and has the members of the list it is made of, and nothing else plays a role for it :
lists with the same members give the same set (`Text.sortedSet_eq_of_mem_iff`).
-/

namespace SqlScript.Text

open List

variable {t : Text} {texts texts' : List Text}

/-- Texts are in the order of their characters. -/
theorem precedes_iff_lt {a b : Text} : a.precedes b ↔ a < b := by
  induction a generalizing b with
  | nil => cases b <;> simp [precedes]
  | cons c a ih =>
    cases b with
    | nil => simp [precedes]
    | cons d b =>
      rw [precedes, Bool.or_eq_true, Bool.and_eq_true, ih, decide_eq_true_iff, beq_iff_eq,
        cons_lt_cons_iff]
      rfl

theorem mem_insertSorted (s : Text) : s ∈ insertSorted t texts ↔ s = t ∨ s ∈ texts := by
  induction texts with
  | nil => simp [insertSorted]
  | cons first texts ih =>
    rw [insertSorted]
    split
    · simp
    · split
      · rename_i hsame
        simp [eq_of_beq hsame]
      · simp only [mem_cons, ih]
        tauto

theorem pairwise_insertSorted (h : texts.Pairwise (· < ·)) :
    (insertSorted t texts).Pairwise (· < ·) := by
  induction texts with
  | nil => exact pairwise_singleton _ _
  | cons first texts ih =>
    obtain ⟨hfirst, hlater⟩ := pairwise_cons.1 h
    rw [insertSorted]
    split
    · rename_i hprecedes
      have hlt := precedes_iff_lt.1 hprecedes
      exact pairwise_cons.2
        ⟨forall_mem_cons.2 ⟨hlt, fun s hs => hlt.trans (hfirst s hs)⟩, h⟩
    · rename_i hnot
      rw [precedes_iff_lt] at hnot
      split
      · exact h
      · rename_i hne
        refine pairwise_cons.2 ⟨fun s hs => ?_, ih hlater⟩
        rcases (mem_insertSorted s).1 hs with rfl | hs
        · exact lt_of_le_of_ne (not_lt.1 hnot) (Ne.symm (by simpa using hne))
        · exact hfirst s hs

theorem sortedSet_aux (texts : List Text) {sorted : List Text} (h : sorted.Pairwise (· < ·)) :
    (texts.foldl (fun sorted t => insertSorted t sorted) sorted).Pairwise (· < ·) ∧
    ∀ s, s ∈ texts.foldl (fun sorted t => insertSorted t sorted) sorted ↔
      s ∈ sorted ∨ s ∈ texts := by
  induction texts generalizing sorted with
  | nil => simpa using h
  | cons t texts ih =>
    obtain ⟨hpairwise, hmem⟩ := ih (pairwise_insertSorted h)
    refine ⟨hpairwise, fun s => (hmem s).trans ?_⟩
    rw [mem_insertSorted, mem_cons]
    tauto

theorem pairwise_sortedSet (texts : List Text) : (sortedSet texts).Pairwise (· < ·) :=
  (sortedSet_aux texts .nil).1

@[simp]
theorem mem_sortedSet {s : Text} : s ∈ sortedSet texts ↔ s ∈ texts := by
  rw [sortedSet, (sortedSet_aux texts .nil).2, mem_nil_iff, false_or]

/-- Only the members of a list play a role for its sorted set. -/
theorem sortedSet_eq_of_mem_iff (h : ∀ s, s ∈ texts ↔ s ∈ texts') :
    sortedSet texts = sortedSet texts' := by
  have hnodup : ∀ texts, (sortedSet texts).Nodup := fun texts =>
    (pairwise_sortedSet texts).imp ne_of_lt
  have hperm : (sortedSet texts).Perm (sortedSet texts') :=
    (perm_ext_iff_of_nodup (hnodup _) (hnodup _)).2 (by simpa using h)
  exact hperm.eq_of_pairwise (fun a b _ _ hlt hgt => absurd hgt hlt.not_gt)
    (pairwise_sortedSet texts) (pairwise_sortedSet texts')

end SqlScript.Text
