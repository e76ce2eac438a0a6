import SqlScript.Proofs.Cutting
import SqlScript.Template.Condition

/-!
# Primitive conditions

A primitive condition is a constant, a comparison of two operands or a membership test. This module
gives their syntax, with the blanks and spellings that may be chosen freely, and their truth value :
comparison and membership are by equality of the words, whatever quotes stand around them.
`evalPrimitive_text` says that the text of a primitive evaluates to its truth value.
-/

namespace SqlScript

open List Option

namespace Condition

/-! ## Syntax -/

/-- An ASCII letter or digit, or `_`. -/
def isNameChar (c : Char) : Bool :=
  c.isAlphanum || c == '_'

/-- A text of name characters, at least one. -/
structure Word where
  text : Text
  ne_nil : text ≠ []
  chars : ∀ c ∈ text, isNameChar c = true

/-- The quote marks around an operand. -/
inductive Quotes where
  | bare
  | single
  | double
deriving DecidableEq, Repr

/-- The mark on each side. -/
def Quotes.mark : Quotes → Text
  | bare => []
  | single => ['\'']
  | double => ['"']

/-- A word, in quotes or not. -/
structure Operand where
  quotes : Quotes
  word : Word

/-- The printed operand. -/
def Operand.text (u : Operand) : Text :=
  u.quotes.mark ++ (u.word.text ++ u.quotes.mark)

/-- Any number of blanks. -/
structure Blanks where
  text : Text
  blank : text.Blank

/-- The signs that compare operands. -/
inductive Relation where
  | equal
  | unequal
  | lessGreater
deriving DecidableEq, Repr

/-- The sign of a relation. -/
def Relation.sign : Relation → Text
  | equal => "==".toList
  | unequal => "!=".toList
  | lessGreater => "<>".toList

/-- Whether the relation holds of two words. -/
def Relation.holds : Relation → Text → Text → Bool
  | equal, u, v => u == v
  | unequal, u, v => u != v
  | lessGreater, u, v => u != v

/-- Two operands with a sign between them. -/
def compared (sign : Text) (u : Operand) (left right : Blanks) (v : Operand) : Text :=
  u.text ++ (left.text ++ (sign ++ (right.text ++ v.text)))

/-- An operand of a list, with blanks around it. -/
structure Item where
  left : Blanks
  operand : Operand
  right : Blanks

/-- The printed operand with its blanks. -/
def Item.text (item : Item) : Text :=
  item.left.text ++ (item.operand.text ++ item.right.text)

/-- The items of a list, with commas between them. -/
def itemsText : Item → List Item → Text
  | first, [] => first.text
  | first, next :: more => first.text ++ ',' :: itemsText next more

/-- What stands before the list of a membership test. -/
def memberLead (u : Operand) (keyword : Text) : Text :=
  u.text ++ ' ' :: (keyword ++ [' '])

/-- A constant in small letters : a truth value, as a word or a numeral, negated or not. -/
def constantText (negated numeral value : Bool) : Text :=
  (if negated then ['!'] else []) ++
    if numeral then (if value then ['1'] else ['0'])
    else if value then "true".toList else "false".toList

/-- The primitive conditions. -/
inductive Primitive where
  /-- A constant, in letters of any case. -/
  | constant (negated numeral value : Bool) (spelling : Text)
    (spelled : spelling.toLowerAscii = constantText negated numeral value)
  | comparison (relation : Relation) (u : Operand) (left right : Blanks) (v : Operand)
  /-- A membership test, with `in` in letters of any case. -/
  | membership (u : Operand) (keyword : Text) (spelled : keyword.toLowerAscii = "in".toList)
    (first : Item) (more : List Item)

namespace Primitive

/-- The printed primitive. -/
def text : Primitive → Text
  | constant _ _ _ spelling _ => spelling
  | comparison relation u left right v => compared relation.sign u left right v
  | membership u keyword _ first more =>
    memberLead u keyword ++ '(' :: (itemsText first more ++ [')'])

/-- The truth value of a primitive. -/
def value : Primitive → Bool
  | constant negated _ value _ _ => value != negated
  | comparison relation u _ _ v => relation.holds u.word.text v.word.text
  | membership u _ _ first more =>
    (first :: more).any fun item => u.word.text == item.operand.word.text

end Primitive

/-! ## Characters of operands -/

/-- A name character or a quote mark. -/
def isOperandChar (c : Char) : Bool :=
  isNameChar c || Text.isQuoteMark c

variable {c : Char} {negated numeral value : Bool} {spelling sign keyword : Text}

theorem toNat_of_isNameChar (h : isNameChar c) :
    48 ≤ c.toNat ∧ c.toNat ≤ 57 ∨ 65 ≤ c.toNat ∧ c.toNat ≤ 122 := by
  have hval : c.val.toNat = c.toNat := rfl
  rw [isNameChar, Char.isAlphanum] at h
  delta Char.isAlpha Char.isUpper Char.isLower at h
  simp only [Char.isDigit, Bool.or_eq_true, Bool.and_eq_true, decide_eq_true_eq,
    UInt32.le_iff_toNat_le, beq_iff_eq, ge_iff_le] at h
  simp at h
  rcases h with ((h | h) | h) | rfl
  · omega
  · omega
  · omega
  · decide

theorem isQuoteMark_of_isNameChar (h : isNameChar c) : Text.isQuoteMark c = false := by
  rw [Text.isQuoteMark, Bool.or_eq_false_iff, beq_eq_false_iff_ne, beq_eq_false_iff_ne]
  constructor
  · rintro rfl
    simp [isNameChar] at h
  · rintro rfl
    simp [isNameChar] at h

theorem isBlank_of_isOperandChar (h : isOperandChar c) : isBlank c = false := by
  rcases Bool.or_eq_true_iff.1 h with h | h
  · have := toNat_of_isNameChar h
    exact isBlank_eq_false (by omega) (by omega)
  · simp only [Text.isQuoteMark, Bool.or_eq_true, beq_iff_eq] at h
    rcases h with rfl | rfl <;> decide

theorem Operand.chars (u : Operand) : ∀ c ∈ u.text, isOperandChar c := by
  intro c hc
  have hmark : ∀ c ∈ u.quotes.mark, isOperandChar c := by
    cases u.quotes <;> simp [Quotes.mark] <;> decide
  simp only [text, mem_append] at hc
  rcases hc with hc | hc | hc
  · exact hmark c hc
  · simp [isOperandChar, u.word.chars c hc]
  · exact hmark c hc

theorem Operand.notMem_text (u : Operand) (hc : isOperandChar c = false) : c ∉ u.text := by
  intro hmem
  simp [u.chars c hmem] at hc

theorem Blanks.notMem_text (b : Blanks) (hc : isBlank c = false) : c ∉ b.text := by
  intro hmem
  simp [b.blank c hmem] at hc

theorem Operand.solid (u : Operand) : u.text.Solid := by
  refine Text.solid_of_forall ?_ fun c hc => isBlank_of_isOperandChar (u.chars c hc)
  simp [text, u.word.ne_nil]

theorem Operand.unquote_text (u : Operand) : u.text.unquote = u.word.text := by
  unfold text
  cases u.quotes with
  | bare =>
    simpa [Quotes.mark] using
      Text.unquote_of_forall fun c hc => isQuoteMark_of_isNameChar (u.word.chars c hc)
  | single => exact Text.unquote_append (by decide) _
  | double => exact Text.unquote_append (by decide) _

/-- Blanks around an operand do not matter. -/
theorem operand_append {left right : Text} (hleft : left.Blank) (u : Operand)
    (hright : right.Blank) : operand (left ++ (u.text ++ right)) = u.word.text := by
  rw [operand, Text.trim_append hleft u.solid hright, u.unquote_text]

/-! ## Constants -/

/-- A character that is its own small form and in no constant is in no spelling of one. -/
theorem notMem_of_spelled (h : spelling.toLowerAscii = constantText negated numeral value)
    (hlower : c.toLower = c) (hc : ∀ n m v, c ∉ constantText n m v) : c ∉ spelling := by
  intro hmem
  exact hc _ _ _ (h ▸ Text.mem_toLowerAscii hmem hlower)

theorem solid_of_spelled
    (h : spelling.toLowerAscii = constantText negated numeral value) : spelling.Solid := by
  have hnone : ∀ n m v, (constantText n m v).all (fun c => !isBlank c) := by decide
  refine Text.solid_of_forall ?_ fun c hc => ?_
  · rintro rfl
    revert negated numeral value
    decide
  · rw [← Bool.not_eq_true]
    intro hblank
    refine notMem_of_spelled h (toLower_eq_self_of_isBlank hblank) (fun n m v hmem => ?_) hc
    simpa [hblank] using List.all_eq_true.1 (hnone n m v) c hmem

theorem constant?_of_spelled (h : spelling.toLowerAscii = constantText negated numeral value) :
    constant? spelling = some (value != negated) := by
  rw [constant?, h]
  cases negated <;> cases numeral <;> cases value <;> rfl

/-- Constants are made of letters, digits and `!`. -/
theorem constant?_eq_none {t : Text} (hmem : c ∈ t) (hlower : c.toLower = c)
    (hc : ∀ n m v, c ∉ constantText n m v) : constant? t = none := by
  have hne : ∀ n m v, t.toLowerAscii ≠ constantText n m v :=
    fun n m v h => notMem_of_spelled h hlower hc hmem
  have hfalse : t.toLowerAscii ∉ ["false".toList, "0".toList, "!true".toList, "!1".toList] := by
    simp only [mem_cons, not_mem_nil, or_false, not_or]
    exact ⟨hne false false false, hne false true false, hne true false true, hne true true true⟩
  have htrue : t.toLowerAscii ∉ ["true".toList, "1".toList, "!false".toList, "!0".toList] := by
    simp only [mem_cons, not_mem_nil, or_false, not_or]
    exact ⟨hne false false true, hne false true true, hne true false false, hne true true false⟩
  rw [← contains_iff_mem] at hfalse htrue
  simp only [constant?, hfalse, htrue, if_false, Bool.false_eq_true]

/-! ## Comparisons -/

theorem solid_compared (sign : Text) (u : Operand) (left right : Blanks) (v : Operand) :
    (compared sign u left right v).Solid := by
  simpa only [compared, append_assoc] using
    u.solid.append_append v.solid (left.text ++ (sign ++ right.text))

/-- Only the sign holds characters that are neither blanks nor of operands. -/
theorem count_compared (sign : Text) (u : Operand) (left right : Blanks) (v : Operand)
    (hc : isOperandChar c = false) (hblank : isBlank c = false) :
    (compared sign u left right v).count c = sign.count c := by
  simp [compared, count_eq_zero.2 (u.notMem_text hc), count_eq_zero.2 (v.notMem_text hc),
    count_eq_zero.2 (left.notMem_text hblank), count_eq_zero.2 (right.notMem_text hblank)]

theorem constant?_compared (u : Operand) (left right : Blanks) (v : Operand) (hmem : c ∈ sign)
    (hlower : c.toLower = c) (hc : ∀ n m v, c ∉ constantText n m v) :
    constant? (compared sign u left right v) = none :=
  constant?_eq_none (by simp [compared, hmem]) hlower hc

/-- The first place of the sign is between the operands. -/
theorem compare?_compared (m : Char) (ms : Text) (u : Operand) (left right : Blanks) (v : Operand)
    (hm : isOperandChar m = false) (hblank : isBlank m = false) :
    compare? (m :: ms) (compared (m :: ms) u left right v) = some (u.word.text == v.word.text) := by
  have hcut : Text.cut? (u.text ++ left.text ++ (m :: ms ++ (right.text ++ v.text))) (m :: ms) =
      some (u.text ++ left.text, right.text ++ v.text) := by
    refine Text.cut?_append m ms ?_ _
    simp [u.notMem_text hm, left.notMem_text hblank]
  have hleft := operand_append Text.blank_nil u left.blank
  have hright := operand_append right.blank v Text.blank_nil
  simp only [nil_append, append_nil] at hleft hright
  rw [append_assoc] at hcut
  simp only [compare?, compared, hcut, map_some, hleft, hright]

/-- A text with fewer characters `c` than a sign is no comparison by that sign. -/
theorem compare?_eq_none (c : Char) {t : Text} (h : t.count c < sign.count c) :
    compare? sign t = none := by
  rw [compare?, Text.cut?_eq_none c h, map_none]

theorem compare?_compared_eq_none (c : Char) {other : Text} (u : Operand) (left right : Blanks)
    (v : Operand) (hc : isOperandChar c = false) (hblank : isBlank c = false)
    (h : sign.count c < other.count c) : compare? other (compared sign u left right v) = none :=
  compare?_eq_none c (by rwa [count_compared sign u left right v hc hblank])

theorem evalPrimitive_compared (relation : Relation) (u : Operand) (left right : Blanks)
    (v : Operand) : evalPrimitive (compared relation.sign u left right v) =
      relation.holds u.word.text v.word.text := by
  rw [evalPrimitive, (solid_compared _ u left right v).trim]
  cases relation with
  | equal =>
    rw [constant?_compared u left right v (c := '=') (by decide) (by decide) (by decide)]
    have hsome : compare? "==".toList (compared Relation.equal.sign u left right v) = _ :=
      compare?_compared '=' ['='] u left right v (by decide) (by decide)
    simp only [hsome]
    rfl
  | unequal =>
    rw [constant?_compared u left right v (c := '=') (by decide) (by decide) (by decide),
      compare?_compared_eq_none '=' u left right v (by decide) (by decide) (by decide)]
    have hsome : compare? "!=".toList (compared Relation.unequal.sign u left right v) = _ :=
      compare?_compared '!' ['='] u left right v (by decide) (by decide)
    simp only [hsome]
    rfl
  | lessGreater =>
    rw [constant?_compared u left right v (c := '<') (by decide) (by decide) (by decide),
      compare?_compared_eq_none '=' u left right v (by decide) (by decide) (by decide),
      compare?_compared_eq_none '!' u left right v (by decide) (by decide) (by decide)]
    have hsome : compare? "<>".toList (compared Relation.lessGreater.sign u left right v) = _ :=
      compare?_compared '<' ['>'] u left right v (by decide) (by decide)
    simp only [hsome]
    rfl

/-! ## Membership -/

theorem Item.notMem_text (item : Item) (hc : isOperandChar c = false)
    (hblank : isBlank c = false) : c ∉ item.text := by
  simp [text, item.operand.notMem_text hc, item.left.notMem_text hblank,
    item.right.notMem_text hblank]

theorem notMem_itemsText (first : Item) (more : List Item) (hc : isOperandChar c = false)
    (hblank : isBlank c = false) (hcomma : c ≠ ',') : c ∉ itemsText first more := by
  induction more generalizing first with
  | nil => exact first.notMem_text hc hblank
  | cons next more ih =>
    simp only [itemsText, mem_append, mem_cons, not_or]
    exact ⟨first.notMem_text hc hblank, hcomma, ih next⟩

theorem itemsText_ne_nil (first : Item) (more : List Item) : itemsText first more ≠ [] := by
  cases more <;> simp [itemsText, Item.text, first.operand.solid.ne_nil]

/-- The fields between the commas are the words of the items. -/
theorem map_operand_fields_itemsText (first : Item) (more : List Item) :
    ((itemsText first more).fields ',').map operand =
      (first :: more).map fun item => item.operand.word.text := by
  induction more generalizing first with
  | nil =>
    rw [itemsText, Text.fields_of_notMem (first.notMem_text (by decide) (by decide))]
    simp [Item.text, operand_append first.left.blank first.operand first.right.blank]
  | cons next more ih =>
    rw [itemsText, Text.fields_append_cons (first.notMem_text (by decide) (by decide)),
      map_cons, ih next]
    simp [Item.text, operand_append first.left.blank first.operand first.right.blank]

theorem listItems?_itemsText (first : Item) (more : List Item) :
    listItems? ('(' :: (itemsText first more ++ [')'])) =
      some ((first :: more).map fun item => item.operand.word.text) := by
  have hpos : 0 < (itemsText first more).length :=
    length_pos_iff.2 (itemsText_ne_nil first more)
  simp [listItems?, hpos, map_operand_fields_itemsText]

/-- A keyword is two letters. -/
theorem eq_pair_of_spelled (h : keyword.toLowerAscii = "in".toList) :
    ∃ i n, keyword = [i, n] ∧ i.toLower = 'i' ∧ n.toLower = 'n' := by
  obtain ⟨i, rest, rfl, hi, hrest⟩ := map_eq_cons_iff.1 h
  obtain ⟨n, rest, rfl, hn, hrest⟩ := map_eq_cons_iff.1 hrest
  exact ⟨i, n, by rw [map_eq_nil_iff.1 hrest], hi, hn⟩

theorem member?_memberLead (u : Operand) (h : keyword.toLowerAscii = "in".toList) (first : Item)
    (more : List Item) :
    member? (memberLead u keyword ++ '(' :: (itemsText first more ++ [')'])) =
      some ((first :: more).any fun item => u.word.text == item.operand.word.text) := by
  obtain ⟨i, n, rfl, hi, hn⟩ := eq_pair_of_spelled h
  have hcut : Text.cutFolded? (u.text ++ ([' ', i, n, ' '] ++
      '(' :: (itemsText first more ++ [')']))) " in ".toList =
      some (u.text, '(' :: (itemsText first more ++ [')'])) := by
    refine Text.cutFolded?_append ' ' "in ".toList (by decide) (u.notMem_text (by decide)) ?_
    simp [Text.stripFolded?, Text.stripBy?, hi, hn]
  have hlist : Text.Solid ('(' :: (itemsText first more ++ [')'])) :=
    (Text.solid_singleton (by decide)).append_append (Text.solid_singleton (by decide)) _
  have hleft := operand_append Text.blank_nil u Text.blank_nil
  simp only [nil_append, append_nil] at hleft
  simp only [memberLead, append_assoc, cons_append, nil_append] at hcut ⊢
  rw [member?, hcut, bind_some]
  simp only [hlist.trim, listItems?_itemsText, map_some, hleft, contains_eq_any_beq,
    List.any_map, Function.comp_def]

theorem solid_membership (u : Operand) (keyword : Text) (first : Item) (more : List Item) :
    Text.Solid (memberLead u keyword ++ '(' :: (itemsText first more ++ [')'])) := by
  have hsolid := u.solid.append_append (Text.solid_singleton (c := ')') (by decide))
    (' ' :: (keyword ++ ' ' :: '(' :: itemsText first more))
  simpa [memberLead] using hsolid

/-- The characters of the signs between operands and of the marks between conditions. -/
def signChars : List Char :=
  ['=', '!', '<', '>', '&', '|']

theorem notMem_memberLead (u : Operand) (h : keyword.toLowerAscii = "in".toList)
    (hc : isOperandChar c = false) (hblank : isBlank c = false) (hlower : c.toLower = c)
    (hin : c ∉ "in".toList) : c ∉ memberLead u keyword := by
  have hkeyword : c ∉ keyword := fun hmem => hin (h ▸ Text.mem_toLowerAscii hmem hlower)
  have hspace : c ≠ ' ' := by
    rintro rfl
    exact absurd hblank (by decide)
  simp [memberLead, u.notMem_text hc, hkeyword, hspace]

theorem notMem_membership (u : Operand) (h : keyword.toLowerAscii = "in".toList) (first : Item)
    (more : List Item)
    (hc : c ∈ signChars) : c ∉ memberLead u keyword ++ '(' :: (itemsText first more ++ [')']) := by
  have hother : ∀ d ∈ signChars, isOperandChar d = false ∧ isBlank d = false ∧
      d ∉ [',', '(', ')'] ∧ d.toLower = d ∧ d ∉ "in".toList := by
    -- unrolled first : what is decided must not range over all characters
    simp only [signChars, forall_mem_cons, not_mem_nil, false_implies, implies_true]
    decide
  obtain ⟨hoperand, hblank, hmarks, hlower, hin⟩ := hother c hc
  simp only [mem_cons, not_mem_nil, or_false, not_or] at hmarks
  simp [notMem_memberLead u h hoperand hblank hlower hin, hmarks,
    notMem_itemsText first more hoperand hblank hmarks.1]

theorem evalPrimitive_membership (u : Operand) (h : keyword.toLowerAscii = "in".toList)
    (first : Item) (more : List Item) :
    evalPrimitive (memberLead u keyword ++ '(' :: (itemsText first more ++ [')'])) =
      (first :: more).any fun item => u.word.text == item.operand.word.text := by
  have hnone : ∀ (c : Char) (sign : Text), c ∈ signChars → 0 < sign.count c →
      compare? sign (memberLead u keyword ++ '(' :: (itemsText first more ++ [')'])) = none := by
    intro c sign hc hcount
    refine compare?_eq_none c ?_
    rwa [count_eq_zero.2 (notMem_membership u h first more hc)]
  rw [evalPrimitive, (solid_membership u keyword first more).trim,
    constant?_eq_none (c := '(') (by simp) (by decide) (by decide),
    hnone '=' "==".toList (by decide) (by decide), hnone '!' "!=".toList (by decide) (by decide),
    hnone '<' "<>".toList (by decide) (by decide), member?_memberLead u h]
  rfl

/-! ## Values -/

namespace Primitive

/-- The text of a primitive evaluates to its truth value. -/
theorem evalPrimitive_text (p : Primitive) : evalPrimitive p.text = p.value := by
  cases p with
  | constant negated numeral value spelling spelled =>
    rw [evalPrimitive, text, (solid_of_spelled spelled).trim, constant?_of_spelled spelled]
    rfl
  | comparison relation u left right v => exact evalPrimitive_compared relation u left right v
  | membership u keyword spelled first more => exact evalPrimitive_membership u spelled first more

theorem solid_text (p : Primitive) : p.text.Solid := by
  cases p with
  | constant negated numeral value spelling spelled => exact solid_of_spelled spelled
  | comparison relation u left right v => exact solid_compared _ u left right v
  | membership u keyword spelled first more => exact solid_membership u keyword first more

theorem notMem_text (p : Primitive) {c : Char} (hc : c ∈ ['&', '|']) : c ∉ p.text := by
  have hother : ∀ d ∈ ['&', '|'], isOperandChar d = false ∧ isBlank d = false ∧ d.toLower = d ∧
      d ∈ signChars ∧ ∀ n m v, d ∉ constantText n m v := by
    simp only [forall_mem_cons, not_mem_nil, false_implies, implies_true]
    decide
  obtain ⟨hoperand, hblank, hlower, hsign, hconstant⟩ := hother c hc
  cases p with
  | constant negated numeral value spelling spelled =>
    exact notMem_of_spelled spelled hlower hconstant
  | comparison relation u left right v =>
    have hrelation : ∀ d ∈ ['&', '|'], d ∉ relation.sign := by
      simp only [forall_mem_cons, not_mem_nil, false_implies, implies_true]
      cases relation <;> decide
    rw [text, ← count_eq_zero, count_compared _ u left right v hoperand hblank, count_eq_zero]
    exact hrelation c hc
  | membership u keyword spelled first more =>
    exact notMem_membership u spelled first more hsign

end Primitive

end Condition

end SqlScript
