import SqlScript.Proofs.Folding
import SqlScript.Proofs.Substitution

/-!
# The common language of the two grammars

The extended grammar adds groups, conjunctions, disjunctions, the operator `<>`, membership and
negated constants to the legacy one. On a condition that uses none of these the two agree
(`Condition.eval_legacy_eq_extended`), whatever else stands in it : operators in any number, blanks,
quotes, and closing parentheses that close nothing.
-/

namespace SqlScript

open List Option Text

namespace Text

theorem trim_trim (t : Text) : t.trim.trim = t.trim := by
  obtain ⟨p, q, hp, hq, ht⟩ := exists_append_trim t
  conv_rhs => rw [ht]
  exact (trim_blank_append hp hq t.trim).symm

theorem isInfix_trim (t : Text) : t.trim <:+: t := by
  obtain ⟨p, q, -, -, ht⟩ := exists_append_trim t
  exact ⟨p, q, by rw [append_assoc, ← ht]⟩

end Text

/-- Without an opening delimiter there are no spans. -/
theorem SpanSet.findFrom_of_notMem {opening closing : Char} {t : Text} (h : opening ∉ t)
    (place : Nat) : findFrom opening closing place [] t = [] := by
  induction t generalizing place with
  | nil => rfl
  | cons c t ih =>
    rw [mem_cons, not_or] at h
    simp only [findFrom, beq_false_of_ne (Ne.symm h.1), ih h.2, Bool.false_eq_true, if_false,
      ite_self]

namespace Condition

variable {t : Text}

/-- A condition without groups and joining operators is a primitive one. -/
theorem evalExtended_of_notMem (hgroup : '(' ∉ t) (hand : '&' ∉ t) (hor : '|' ∉ t) :
    evalExtended t = .ok (evalPrimitive t) := by
  have hsub := t.isInfix_trim.subset
  have hfind : SpanSet.find '(' ')' t.trim = [] :=
    SpanSet.findFrom_of_notMem (fun h => hgroup (hsub h)) 0
  have hflat : evalFlat t.trim = evalPrimitive t.trim := by
    rw [evalFlat, trim_trim, if_neg (by simpa using fun h => hand (hsub h)),
      if_neg (by simpa using fun h => hor (hsub h))]
  have hprimitive : evalPrimitive t.trim = evalPrimitive t := by
    rw [evalPrimitive, trim_trim, evalPrimitive]
  simp only [evalExtended, hfind, ← hprimitive, ← hflat]
  rfl

/-- A membership test has the word in it. -/
theorem member?_eq_none (h : ¬ " in ".toList <:+: t.toLowerAscii) : member? t = none := by
  rw [member?, bind_eq_none_iff]
  intro parts hcut
  obtain ⟨m, rfl, hm⟩ := ByOffset.append_of_cutFolded? hcut
  refine absurd ⟨parts.1.toLowerAscii, parts.2.toLowerAscii, ?_⟩ h
  rw [toLowerAscii_append, toLowerAscii_append, hm, append_assoc]
  rfl

/-- A constant is false and not negated just if it is one of the legacy grammar. -/
theorem constant?_eq_some_false_iff (htrue : t.toLowerAscii ≠ "!true".toList)
    (hone : t.toLowerAscii ≠ "!1".toList) :
    constant? t = some false ↔ (t.eqFolded "false".toList || t == ['0']) := by
  have hzero : t.toLowerAscii = "0".toList ↔ t = ['0'] := by
    refine ⟨fun h => ?_, fun h => by rw [h]; decide⟩
    obtain ⟨c, rfl, hc⟩ := map_eq_singleton_iff.1 h
    have hc : c.toLower = '0' := hc
    rw [eq_of_toLower_eq (by decide) hc]
  have hword : toLowerAscii "false".toList = "false".toList := by decide
  have hlegacy : (t.eqFolded "false".toList || t == ['0']) ↔ t.toLowerAscii ∈
      ["false".toList, "0".toList, "!true".toList, "!1".toList] := by
    rw [eqFolded, hword, Bool.or_eq_true, beq_iff_eq, beq_iff_eq, ← hzero]
    simp only [mem_cons, htrue, hone, not_mem_nil, or_false]
  rw [hlegacy, ← contains_iff_mem, constant?]
  split
  · rename_i h
    simp only [h]
  · rename_i h
    simp only [h, Bool.false_eq_true, iff_false]
    split <;> simp

/-- The two grammars agree on conditions that use nothing the extended one adds. -/
theorem eval_legacy_eq_extended (hgroup : '(' ∉ t) (hand : '&' ∉ t) (hor : '|' ∉ t)
    (hunequal : ¬ "<>".toList <:+: t) (hmember : ¬ " in ".toList <:+: t.toLowerAscii)
    (htrue : t.trim.toLowerAscii ≠ "!true".toList) (hone : t.trim.toLowerAscii ≠ "!1".toList) :
    eval .legacy t = eval .extended t := by
  have hpart := t.isInfix_trim
  have hless : compare? "<>".toList t.trim = none := by
    rw [compare?, Text.cut?_eq_none_iff.2 fun h => hunequal (h.trans hpart)]
    rfl
  have hnone : member? t.trim = none := member?_eq_none fun h => hmember (h.trans (hpart.map _))
  have hfalse := constant?_eq_some_false_iff htrue hone
  rw [eval, eval, evalExtended_of_notMem hgroup hand hor, evalLegacy, evalPrimitive]
  simp only [hless, hnone, or_none, getD_none, ← hfalse]
  cases hconstant : constant? t.trim with
  | none => rfl
  | some value =>
    -- a constant has no operator in it
    have hcount : t.trim.count '=' = 0 := count_eq_zero.2 fun hmem => by
      rw [constant?_eq_none hmem (by decide) (by decide)] at hconstant
      cases hconstant
    rw [compare?_eq_none '=' (by rw [hcount]; decide),
      compare?_eq_none '=' (by rw [hcount]; decide)]
    cases value <;> rfl

/-- Two operators, quotes around one of them, and parentheses that close nothing. -/
theorem eval_legacy_eq_extended_quoted :
    let t : Text := " ')' != x == 'a != <b>' ".toList
    '(' ∉ t ∧ '&' ∉ t ∧ '|' ∉ t ∧ ¬ "<>".toList <:+: t ∧ ¬ " in ".toList <:+: t.toLowerAscii ∧
      t.trim.toLowerAscii ≠ "!true".toList ∧ t.trim.toLowerAscii ≠ "!1".toList ∧
      eval .legacy t = eval .extended t := by
  refine ⟨by decide, by decide, by decide, by decide, by decide, by decide, by decide, ?_⟩
  exact eval_legacy_eq_extended (by decide) (by decide) (by decide) (by decide) (by decide)
    (by decide) (by decide)

end Condition

end SqlScript
