import SqlScript.Proofs.GroupFold
import SqlScript.Proofs.Primitive

/-!
# The meaning of parenthesized conditions

An expression is a factor, or two or more factors joined by one mark, `&` or `|`, where a factor is
a primitive or an expression in parentheses. `Expr.text` prints an expression, with the blanks it
carries, and `Expr.value` is its truth value. `Expr.eval_text` says that the text of every
expression evaluates to its truth value.

The printed expression is the text of a nest, and folding the groups of that nest leaves the
primitives of the outermost list and one digit for each parenthesized factor (`Expr.fold_nest`).
The lists of membership tests survive since they follow the word `in`; a parenthesized factor never
does, because it stands at the start or after a parenthesis or a mark (`Fresh`).
-/

namespace SqlScript

open Text Nest List

variable {shape : Shape} {p q t : Text}

namespace Condition

/-! ## Expressions -/

/-- What joins the factors of a list. -/
inductive Joint where
  | and
  | or
deriving DecidableEq, Repr

/-- The mark between two factors. -/
def Joint.mark : Joint → Char
  | and => '&'
  | or => '|'

/-- The value of two joined conditions. -/
def Joint.join : Joint → Bool → Bool → Bool
  | and => Bool.and
  | or => Bool.or

/-- An expression is one factor or a list of factors with the same mark between them. -/
inductive Shape where
  | factor
  | joined (joint : Joint)

/-- The expressions of each shape, with the blanks they are printed with. -/
inductive Expr : Shape → Type where
  | primitive (p : Primitive) : Expr .factor
  | group {shape : Shape} (left : Blanks) (e : Expr shape) (right : Blanks) : Expr .factor
  | pair (joint : Joint) (f : Expr .factor) (left right : Blanks) (g : Expr .factor) :
    Expr (.joined joint)
  | more (joint : Joint) (f : Expr .factor) (left right : Blanks) (rest : Expr (.joined joint)) :
    Expr (.joined joint)

namespace Expr

/-- The printed expression. -/
def text : {shape : Shape} → Expr shape → Text
  | _, primitive p => p.text
  | _, group left e right => '(' :: (left.text ++ (e.text ++ (right.text ++ [')'])))
  | _, pair joint f left right g =>
    f.text ++ (left.text ++ joint.mark :: (right.text ++ g.text))
  | _, more joint f left right rest =>
    f.text ++ (left.text ++ joint.mark :: (right.text ++ rest.text))

/-- The truth value of an expression. -/
def value : {shape : Shape} → Expr shape → Bool
  | _, primitive p => p.value
  | _, group _ e _ => e.value
  | _, pair joint f _ _ g => joint.join f.value g.value
  | _, more joint f _ _ rest => joint.join f.value rest.value

/-- The printed expression with a digit in the place of each parenthesized factor. -/
def flat : {shape : Shape} → Expr shape → Text
  | _, primitive p => p.text
  | _, group _ e _ => [digit e.value]
  | _, pair joint f left right g =>
    f.flat ++ (left.text ++ joint.mark :: (right.text ++ g.flat))
  | _, more joint f left right rest =>
    f.flat ++ (left.text ++ joint.mark :: (right.text ++ rest.flat))

end Expr

/-- The parentheses of a primitive : those of the list of a membership test. -/
def Primitive.nest : Primitive → Nest
  | .membership u keyword _ first more =>
    (ofChars (memberLead u keyword)).append
      (.group (ofChars (itemsText first more)) .nil)
  | p => ofChars p.text

/-- The parentheses of a printed expression. -/
def Expr.nest : {shape : Shape} → Expr shape → Nest
  | _, primitive p => p.nest
  | _, group left e right =>
    .group ((ofChars left.text).append (e.nest.append (ofChars right.text))) .nil
  | _, pair joint f left right g =>
    f.nest.append ((ofChars (left.text ++ joint.mark :: right.text)).append g.nest)
  | _, more joint f left right rest =>
    f.nest.append ((ofChars (left.text ++ joint.mark :: right.text)).append rest.nest)

/-! ## Nests of printed expressions -/

theorem Primitive.text_nest (p : Primitive) : p.nest.text '(' ')' = p.text := by
  cases p <;> simp [nest, Primitive.text, Nest.text]

theorem Expr.text_nest (e : Expr shape) : e.nest.text '(' ')' = e.text := by
  induction e with
  | primitive p => exact p.text_nest
  | group left e right ih => simp [nest, text, Nest.text, ih]
  | pair joint f left right g ihf ihg => simp [nest, text, ihf, ihg]
  | more joint f left right rest ihf ihr => simp [nest, text, ihf, ihr]

theorem Blanks.clean (b : Blanks) : (ofChars b.text).Clean '(' ')' :=
  clean_ofChars (b.notMem_text (by decide)) (b.notMem_text (by decide))

theorem clean_compared {sign : Text} (u : Operand) (left right : Blanks) (v : Operand)
    (hopening : '(' ∉ sign) (hclosing : ')' ∉ sign) :
    (ofChars (compared sign u left right v)).Clean '(' ')' := by
  refine clean_ofChars ?_ ?_
  · rwa [← count_eq_zero, count_compared sign u left right v (by decide) (by decide),
      count_eq_zero]
  · rwa [← count_eq_zero, count_compared sign u left right v (by decide) (by decide),
      count_eq_zero]

theorem Primitive.clean_nest (p : Primitive) : p.nest.Clean '(' ')' := by
  cases p with
  | constant negated numeral value spelling spelled =>
    exact clean_ofChars (notMem_of_spelled spelled (by decide) (by decide))
      (notMem_of_spelled spelled (by decide) (by decide))
  | comparison relation u left right v =>
    exact clean_compared u left right v (by cases relation <;> decide)
      (by cases relation <;> decide)
  | membership u keyword spelled first more =>
    refine clean_append (clean_ofChars ?_ ?_) ⟨clean_ofChars ?_ ?_, trivial⟩
    · exact notMem_memberLead u spelled (by decide) (by decide) (by decide) (by decide)
    · exact notMem_memberLead u spelled (by decide) (by decide) (by decide) (by decide)
    · exact notMem_itemsText first more (by decide) (by decide) (by decide)
    · exact notMem_itemsText first more (by decide) (by decide) (by decide)

/-- The nest of a mark with blanks around it. -/
theorem Joint.clean_mark (joint : Joint) (left right : Blanks) :
    (ofChars (left.text ++ joint.mark :: right.text)).Clean '(' ')' := by
  have hopening : '(' ≠ joint.mark := by cases joint <;> decide
  have hclosing : ')' ≠ joint.mark := by cases joint <;> decide
  refine clean_ofChars ?_ ?_
  · simp [hopening, left.notMem_text (c := '(') (by decide),
      right.notMem_text (c := '(') (by decide)]
  · simp [hclosing, left.notMem_text (c := ')') (by decide),
      right.notMem_text (c := ')') (by decide)]

theorem Expr.clean_nest (e : Expr shape) : e.nest.Clean '(' ')' := by
  induction e with
  | primitive p => exact p.clean_nest
  | group left e right ih =>
    exact ⟨clean_append left.clean (clean_append ih right.clean), trivial⟩
  | pair joint f left right g ihf ihg =>
    exact clean_append ihf (clean_append (joint.clean_mark left right) ihg)
  | more joint f left right rest ihf ihr =>
    exact clean_append ihf (clean_append (joint.clean_mark left right) ihr)

/-! ## Folding the nest of an expression -/

theorem fold_append (before : Text) (N M : Nest) :
    fold before (N.append M) = fold before N ++ fold (before ++ fold before N) M := by
  induction N generalizing before with
  | nil => simp [append, fold]
  | char c rest ih => simp [append, fold, ih]
  | group inner rest _ ih => simp [append, fold, ih]

@[simp] theorem fold_ofChars (before t : Text) : fold before (ofChars t) = t := by
  induction t generalizing before with
  | nil => rfl
  | cons c t ih => simp [ofChars, fold, ih]

/-- The list of a membership test follows the word `in`. -/
theorem endsInMembership_memberLead (before : Text) (u : Operand) {keyword : Text}
    (h : keyword.toLowerAscii = "in".toList) :
    endsInMembership (before ++ memberLead u keyword) := by
  obtain ⟨i, n, rfl, hi, hn⟩ := eq_pair_of_spelled h
  have hblank : isBlank n = false := by
    rw [← Bool.not_eq_true]
    intro hblank
    rw [toLower_eq_self_of_isBlank hblank] at hn
    subst hn
    exact absurd hblank (by decide)
  have hspace : isBlank ' ' := by decide
  simp [endsInMembership, memberLead, hspace, hblank, eqFolded, toLowerAscii, hi, hn]

/-- What stands before a factor : a group after it, blanks aside, is no list. -/
def Fresh (before : Text) : Prop :=
  ∀ blanks : Text, blanks.Blank → endsInMembership (before ++ blanks) = false

theorem fresh_nil : Fresh [] := by
  intro blanks hblanks
  have hnil : blanks.reverse.dropWhile isBlank = [] := by
    rw [← append_nil blanks.reverse, dropWhile_append_of_pos hblanks.reverse, dropWhile_nil]
  simp [endsInMembership, hnil]

/-- A character that ends no word `in` makes what follows fresh. -/
theorem fresh_append_cons (before : Text) {c : Char} (hblank : isBlank c = false)
    (hc : c.toLower ≠ 'n') {blanks : Text} (h : blanks.Blank) : Fresh (before ++ c :: blanks) := by
  intro more hmore
  have hdrop : (before ++ c :: blanks ++ more).reverse.dropWhile isBlank = c :: before.reverse := by
    rw [reverse_append, dropWhile_append_of_pos hmore.reverse, reverse_append,
      reverse_cons, append_assoc, dropWhile_append_of_pos h.reverse,
      singleton_append, dropWhile_cons_of_neg (by simp [hblank])]
  rw [endsInMembership, hdrop]
  cases before.reverse with
  | nil => rfl
  | cons i rest => simp [eqFolded, toLowerAscii, hc]

theorem Primitive.fold_nest (before : Text) (p : Primitive) : fold before p.nest = p.text := by
  cases p with
  | constant negated numeral value spelling spelled => simp [nest, Primitive.text]
  | comparison relation u left right v => simp [nest, Primitive.text]
  | membership u keyword spelled first more =>
    have hin := endsInMembership_memberLead before u spelled
    simp [nest, Primitive.text, fold_append, fold, foldedGroup, hin]

/-! ## Values of flat texts -/

theorem evalPrimitive_append (hp : p.Blank) (ht : t.Solid) (hq : q.Blank) :
    evalPrimitive (p ++ (t ++ q)) = evalPrimitive t := by
  rw [evalPrimitive, evalPrimitive, trim_append hp ht hq, ht.trim]

theorem evalPrimitive_digit (value : Bool) : evalPrimitive [digit value] = value := by
  cases value <;> decide

/-- The value of a list of conditions. -/
def Joint.gather : Joint → List Text → Bool
  | and, parts => parts.all evalPrimitive
  | or, parts => parts.any evalPrimitive

theorem Joint.gather_cons (joint : Joint) (part : Text) (parts : List Text) :
    joint.gather (part :: parts) = joint.join (evalPrimitive part) (joint.gather parts) := by
  cases joint <;> simp [gather, join]

theorem Joint.gather_singleton (joint : Joint) (part : Text) :
    joint.gather [part] = evalPrimitive part := by
  cases joint <;> simp [gather]

theorem operands_append_cons {mark : Char} (ht : t.trim ≠ []) (hmark : mark ∉ t)
    (rest : Text) : operands mark (t ++ mark :: rest) = t :: operands mark rest := by
  rw [operands, fields_append_cons hmark, filter_cons_of_pos (by simp [ht]), operands]

theorem operands_of_notMem {mark : Char} (ht : t.trim ≠ []) (hmark : mark ∉ t) :
    operands mark t = [t] := by
  rw [operands, fields_of_notMem hmark, filter_cons_of_pos (by simp [ht]),
    filter_nil]

namespace Expr

theorem solid_flat (e : Expr shape) : e.flat.Solid := by
  induction e with
  | primitive p => exact p.solid_text
  | group left e right _ => exact solid_singleton (by cases e.value <;> decide)
  | pair joint f left right g ihf ihg =>
    simpa [flat] using ihf.append_append ihg (left.text ++ joint.mark :: right.text)
  | more joint f left right rest ihf ihr =>
    simpa [flat] using ihf.append_append ihr (left.text ++ joint.mark :: right.text)

theorem solid_text (e : Expr shape) : e.text.Solid := by
  induction e with
  | primitive p => exact p.solid_text
  | group left e right _ =>
    simpa [text] using (solid_singleton (c := '(') (by decide)).append_append
      (solid_singleton (c := ')') (by decide)) (left.text ++ (e.text ++ right.text))
  | pair joint f left right g ihf ihg =>
    simpa [text] using ihf.append_append ihg (left.text ++ joint.mark :: right.text)
  | more joint f left right rest ihf ihr =>
    simpa [text] using ihf.append_append ihr (left.text ++ joint.mark :: right.text)

/-- A factor holds no mark outside its parentheses. -/
theorem notMem_flat (f : Expr .factor) {c : Char} (hc : c ∈ ['&', '|']) : c ∉ f.flat := by
  cases f with
  | primitive p => exact p.notMem_text hc
  | group left e right =>
    have hdigit : ∀ d ∈ ['&', '|'], d ∉ [digit e.value] := by
      simp only [forall_mem_cons, not_mem_nil, false_implies, implies_true]
      cases e.value <;> decide
    exact hdigit c hc

theorem evalPrimitive_flat (f : Expr .factor) : evalPrimitive f.flat = f.value := by
  cases f with
  | primitive p => exact p.evalPrimitive_text
  | group left e right => exact evalPrimitive_digit e.value

end Expr

theorem Joint.mark_mem (joint : Joint) : joint.mark ∈ ['&', '|'] := by
  cases joint <;> decide

theorem Joint.isBlank_mark (joint : Joint) : isBlank joint.mark = false := by
  cases joint <;> decide

/-- A factor that follows a mark is fresh. -/
theorem Joint.fresh_mark (joint : Joint) (before : Text) (left right : Blanks) :
    Fresh (before ++ (left.text ++ joint.mark :: right.text)) := by
  have hmark : joint.mark.toLower ≠ 'n' := by cases joint <;> decide
  rw [← append_assoc]
  exact fresh_append_cons _ joint.isBlank_mark hmark right.blank

namespace Expr

/-- A factor with blanks around it is one operand. -/
theorem gather_operands_factor (joint : Joint) (f : Expr .factor) (hp : p.Blank)
    (hq : q.Blank) (rest : Text) :
    joint.gather (operands joint.mark (p ++ (f.flat ++ q) ++ joint.mark :: rest)) =
      joint.join f.value (joint.gather (operands joint.mark rest)) := by
  have hpmark : joint.mark ∉ p := fun hmem => by simpa [joint.isBlank_mark] using hp _ hmem
  have hqmark : joint.mark ∉ q := fun hmem => by simpa [joint.isBlank_mark] using hq _ hmem
  have hne : trim (p ++ (f.flat ++ q)) ≠ [] := by
    rw [trim_append hp f.solid_flat hq]
    exact f.solid_flat.ne_nil
  rw [operands_append_cons hne (by simp [hpmark, hqmark, f.notMem_flat joint.mark_mem]),
    joint.gather_cons, evalPrimitive_append hp f.solid_flat hq, f.evalPrimitive_flat]

theorem gather_operands_last (joint : Joint) (f : Expr .factor) (hp : p.Blank) :
    joint.gather (operands joint.mark (p ++ f.flat)) = f.value := by
  have hpmark : joint.mark ∉ p := fun hmem => by simpa [joint.isBlank_mark] using hp _ hmem
  have htrim := trim_append hp f.solid_flat blank_nil
  have heval := evalPrimitive_append hp f.solid_flat blank_nil
  rw [append_nil] at htrim heval
  have hne : trim (p ++ f.flat) ≠ [] := by
    rw [htrim]
    exact f.solid_flat.ne_nil
  rw [operands_of_notMem hne (by simp [hpmark, f.notMem_flat joint.mark_mem]),
    joint.gather_singleton, heval, f.evalPrimitive_flat]

/-- The operands between the marks of a list have the values of its factors. -/
theorem gather_operands_flat {joint : Joint} :
    (e : Expr (.joined joint)) → {p : Text} → p.Blank →
      joint.gather (operands joint.mark (p ++ e.flat)) = e.value
  | pair _ f left right g, p, hp => by
    have hfirst := gather_operands_factor joint f hp left.blank (right.text ++ g.flat)
    rw [gather_operands_last joint g right.blank] at hfirst
    simpa [flat, value] using hfirst
  | more _ f left right rest, p, hp => by
    have hfirst := gather_operands_factor joint f hp left.blank (right.text ++ rest.flat)
    rw [gather_operands_flat rest right.blank] at hfirst
    simpa [flat, value] using hfirst

theorem mark_mem_flat {joint : Joint} (e : Expr (.joined joint)) : joint.mark ∈ e.flat := by
  cases e with
  | pair _ f left right g => simp [flat]
  | more _ f left right rest => simp [flat]

/-- A disjunction holds no `&` outside its parentheses. -/
theorem and_notMem_flat : (e : Expr (.joined .or)) → '&' ∉ e.flat
  | pair _ f left right g => by
    simp [flat, Joint.mark, f.notMem_flat, g.notMem_flat, left.notMem_text (c := '&') (by decide),
      right.notMem_text (c := '&') (by decide)]
  | more _ f left right rest => by
    simp [flat, Joint.mark, f.notMem_flat, and_notMem_flat rest,
      left.notMem_text (c := '&') (by decide), right.notMem_text (c := '&') (by decide)]

/-- The value of an expression is read off its flat text. -/
theorem evalFlat_flat (e : Expr shape) (hp : p.Blank)
    (hq : q.Blank) : evalFlat (p ++ (e.flat ++ q)) = e.value := by
  rw [evalFlat, trim_append hp e.solid_flat hq]
  match shape, e with
  | .factor, f =>
    simp [f.notMem_flat, f.evalPrimitive_flat]
  | .joined .and, e =>
    have hmark := e.mark_mem_flat
    have hgather := e.gather_operands_flat blank_nil
    rw [Joint.mark] at hmark
    simpa [hmark, Joint.gather, Joint.mark] using hgather
  | .joined .or, e =>
    have hmark := e.mark_mem_flat
    have hgather := e.gather_operands_flat blank_nil
    rw [Joint.mark] at hmark
    simpa [hmark, e.and_notMem_flat, Joint.gather, Joint.mark] using hgather

/-! ## The meaning of the printed expression -/

/-- Folding leaves a digit in the place of each parenthesized factor. -/
theorem fold_nest (e : Expr shape) {before : Text} (h : Fresh before) :
    fold before e.nest = e.flat := by
  induction e generalizing before with
  | primitive p => exact p.fold_nest before
  | group left e right ih =>
    have hbefore : endsInMembership before = false := by
      simpa using h [] blank_nil
    have hinside := ih (fresh_append_cons before (c := '(') (by decide) (by decide) left.blank)
    have hbody := e.evalFlat_flat left.blank right.blank
    simp [nest, flat, fold, fold_append, foldedGroup, hbefore, hinside, hbody]
  | pair joint f left right g ihf ihg =>
    have hmark := joint.fresh_mark (before ++ f.flat) left right
    rw [nest, fold_append, ihf h, fold_append, fold_ofChars, ihg hmark]
    simp [flat]
  | more joint f left right rest ihf ihr =>
    have hmark := joint.fresh_mark (before ++ f.flat) left right
    rw [nest, fold_append, ihf h, fold_append, fold_ofChars, ihr hmark]
    simp [flat]

/-- The text of an expression evaluates to its truth value. -/
theorem eval_text {shape : Shape} (e : Expr shape) (left right : Blanks) :
    eval .extended (left.text ++ (e.text ++ right.text)) = .ok e.value := by
  have htrim := Text.trim_append left.blank e.solid_text right.blank
  have hspans := Nest.find_text e.clean_nest (by decide)
  rw [e.text_nest, ← htrim] at hspans
  have hflat := e.evalFlat_flat Text.blank_nil Text.blank_nil
  rw [List.nil_append, List.append_nil] at hflat
  rw [eval, evalExtended_of_spans (e.text_nest.trans htrim.symm) hspans, e.fold_nest fresh_nil,
    hflat]

end Expr

end Condition

end SqlScript
