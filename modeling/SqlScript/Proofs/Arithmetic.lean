import SqlScript.Proofs.Phrase
import SqlScript.Proofs.SmallLetters

/-!
# Arithmetic expressions

Expressions of names, numbers, columns of tables, calls, parentheses and the four operators, with
blanks anywhere between their tokens. An expression is a phrase (`Expr.phrase`) : its text and its
tokens are those of the phrase, any symbol may stand next to it (`Expr.operand_phrase`), it is one
element of a list (`Expr.element_phrase`), and none of the words that the rewriting for BigQuery
looks for stands in it (`Expr.notMem_of_keyword`).
-/

namespace SqlScript

open List Layout.Phrase

namespace Query

open Layout (Space Phrase isSmallWord isPlainSymbol isPlainSymbol_comma)

/-- The words that the rewriting looks for. -/
def keywords : List Text :=
  ["select", "from", "group", "by", "order", "as", "into", "distinct", "with", "in", "asc", "desc",
    "case", "cast", "isnull", "end"].map String.toList

/-- A name in small letters that is no keyword. -/
structure Name where
  text : Text
  identifier : (!text.isEmpty && text.all fun c => isAlphanumeric c || c == '_') = true
  small : text.toLowerAscii = text
  lower : text.lowercase = text
  start : text.head?.any Char.isDigit = false
  free : text ∉ keywords

/-- The name of a single letter. -/
def Name.letter (c : Char) (h : c = 'a' ∨ c = 'b' ∨ c = 't') : Name where
  text := [c]
  identifier := by rcases h with rfl | rfl | rfl <;> decide +kernel
  small := by rcases h with rfl | rfl | rfl <;> decide +kernel
  lower := by rcases h with rfl | rfl | rfl <;> decide +kernel
  start := by rcases h with rfl | rfl | rfl <;> decide +kernel
  free := by rcases h with rfl | rfl | rfl <;> decide +kernel

/-- A number, written with digits. -/
structure Number where
  text : Text
  ne_nil : text ≠ []
  digits : text.all Char.isDigit = true

/-- The operators. -/
inductive Operator where
  | plus
  | minus
  | times
  | divide
deriving DecidableEq

/-- The symbol of an operator. -/
def Operator.char : Operator → Char
  | plus => '+'
  | minus => '-'
  | times => '*'
  | divide => '/'

mutual

/-- An expression, with the blanks between its tokens. -/
inductive Expr where
  | name (name : Name)
  | number (number : Number)
  | column (table : Name) (before after : Space) (column : Name)
  | call (name : Name) (before inside : Space) (args : Args) (after : Space)
  | callNone (name : Name) (before inside : Space)
  | group (inside : Space) (e : Expr) (after : Space)
  | binary (left : Expr) (before : Space) (op : Operator) (after : Space) (right : Expr)

/-- The arguments of a call. -/
inductive Args where
  | last (e : Expr)
  | more (e : Expr) (before after : Space) (args : Args)

end

/-! ## Text and tokens -/

mutual

/-- The text of an expression. -/
def Expr.text : Expr → Text
  | .name n => n.text
  | .number n => n.text
  | .column table before after column =>
    table.text ++ before.text ++ ['.'] ++ after.text ++ column.text
  | .call n before inside args after =>
    n.text ++ before.text ++ ['('] ++ inside.text ++ args.text ++ after.text ++ [')']
  | .callNone n before inside => n.text ++ before.text ++ ['('] ++ inside.text ++ [')']
  | .group inside e after => ['('] ++ inside.text ++ e.text ++ after.text ++ [')']
  | .binary left before op after right =>
    left.text ++ before.text ++ [op.char] ++ after.text ++ right.text

/-- The text of arguments. -/
def Args.text : Args → Text
  | .last e => e.text
  | .more e before after args => e.text ++ before.text ++ [','] ++ after.text ++ args.text

end

mutual

/-- The texts of the tokens of an expression. -/
def Expr.tokens : Expr → List Text
  | .name n => [n.text]
  | .number n => [n.text]
  | .column table _ _ column => [table.text, ['.'], column.text]
  | .call n _ _ args _ => [n.text, ['(']] ++ args.tokens ++ [[')']]
  | .callNone n _ _ => [n.text, ['('], [')']]
  | .group _ e _ => [['(']] ++ e.tokens ++ [[')']]
  | .binary left _ op _ right => left.tokens ++ [[op.char]] ++ right.tokens

/-- The texts of the tokens of arguments. -/
def Args.tokens : Args → List Text
  | .last e => e.tokens
  | .more e _ _ args => e.tokens ++ [[',']] ++ args.tokens

end

theorem Expr.tokens_ne_nil (e : Expr) : e.tokens ≠ [] := by
  cases e <;> simp [Expr.tokens]

/-! ## Phrases -/

theorem Name.isSmallWord_text (n : Name) : isSmallWord n.text := by
  have hall : n.text.all isWordChar := by
    refine all_eq_true.2 fun c hc => ?_
    have hid := n.identifier
    rw [Bool.and_eq_true] at hid
    have hchar := all_eq_true.1 hid.2 c hc
    rw [isWordChar, hchar]
    rfl
  have hlone : n.text ≠ ['@'] := by
    intro hat
    have hid := n.identifier
    rw [hat] at hid
    exact absurd hid (by decide)
  have hempty : n.text.isEmpty = false := by
    have hid := n.identifier
    rw [Bool.and_eq_true] at hid
    simpa using hid.1
  simp [isSmallWord, hall, hlone, hempty, n.small]

theorem Number.isSmallWord_text (n : Number) : isSmallWord n.text :=
  Layout.isSmallWord_of_digits n.ne_nil (all_eq_true.1 n.digits)

theorem Operator.isPlainSymbol_char (op : Operator) : isPlainSymbol op.char := by
  cases op <;> decide

variable {σ : Type}

/-- A name as a phrase. -/
def Name.phrase (n : Name) : Phrase σ :=
  .word n.text n.isSmallWord_text

theorem Name.words_phrase (n : Name) : (n.phrase : Phrase σ).words = [n.text] :=
  words_word _ _

/-- A number as a phrase. -/
def Number.phrase (n : Number) : Phrase σ :=
  .word n.text n.isSmallWord_text

/-- An operator as a phrase. -/
def Operator.phrase (op : Operator) : Phrase σ :=
  .symbol op.char op.isPlainSymbol_char

mutual

/-- An expression as a phrase. -/
def Expr.phrase : Expr → Phrase σ
  | .name n => n.phrase
  | .number n => n.phrase
  | .column table before after column =>
    (table.phrase.link before (.symbol '.' (by decide))).link after column.phrase
  | .call n before inside args after => n.phrase.link before (.parens inside args.phrase after)
  | .callNone n before inside => n.phrase.link before (.noArguments inside)
  | .group inside e after => .parens inside e.phrase after
  | .binary left before op after right =>
    (left.phrase.link before op.phrase).link after right.phrase

/-- Arguments as a phrase. -/
def Args.phrase : Args → Phrase σ
  | .last e => e.phrase
  | .more e before after args =>
    (e.phrase.link before (.symbol ',' isPlainSymbol_comma)).link after args.phrase

end

mutual

theorem Expr.text_phrase (s : σ) : ∀ e : Expr, e.phrase.text s = e.text
  | .name _ => rfl
  | .number _ => rfl
  | .column .. => by simp [Expr.phrase, Expr.text, Name.phrase]
  | .call _ _ _ args _ => by
    simp [Expr.phrase, Expr.text, Name.phrase, parens, Args.text_phrase s args]
  | .callNone .. => by simp [Expr.phrase, Expr.text, Name.phrase, noArguments]
  | .group _ e _ => by simp [Expr.phrase, Expr.text, parens, Expr.text_phrase s e]
  | .binary left _ _ _ right => by
    simp [Expr.phrase, Expr.text, Operator.phrase, Expr.text_phrase s left,
      Expr.text_phrase s right]

theorem Args.text_phrase (s : σ) : ∀ args : Args, args.phrase.text s = args.text
  | .last e => Expr.text_phrase s e
  | .more e _ _ args => by
    simp [Args.phrase, Args.text, Expr.text_phrase s e, Args.text_phrase s args]

end

mutual

theorem Expr.words_phrase : ∀ e : Expr, (e.phrase : Phrase σ).words = e.tokens
  | .name n => n.words_phrase
  | .number _ => words_word _ _
  | .column .. => by simp [Expr.phrase, Expr.tokens, Name.phrase]
  | .call _ _ _ args _ => by
    simp [Expr.phrase, Expr.tokens, Name.phrase, parens, Args.words_phrase args]
  | .callNone .. => by simp [Expr.phrase, Expr.tokens, Name.phrase, noArguments]
  | .group _ e _ => by simp [Expr.phrase, Expr.tokens, parens, Expr.words_phrase e]
  | .binary left _ _ _ right => by
    simp [Expr.phrase, Expr.tokens, Operator.phrase, Expr.words_phrase left,
      Expr.words_phrase right]

theorem Args.words_phrase : ∀ args : Args, (args.phrase : Phrase σ).words = args.tokens
  | .last e => Expr.words_phrase e
  | .more e _ _ args => by
    simp [Args.phrase, Args.tokens, Expr.words_phrase e, Args.words_phrase args]

end

mutual

theorem Expr.operand_phrase : ∀ e : Expr, (e.phrase : Phrase σ).Operand
  | .name n => operand_word n.text n.isSmallWord_text
  | .number n => operand_word n.text n.isSmallWord_text
  | .column table before after column =>
    (operand_word table.text _).link before _ after (operand_word column.text _)
  | .call n before inside args after =>
    ((Args.operand_phrase args).parens inside after).called (by simp [parens]) n.text _
      before
  | .callNone n before inside =>
    (operand_noArguments inside).called (by simp [noArguments]) n.text _ before
  | .group inside e after => (Expr.operand_phrase e).parens inside after
  | .binary left before _ after right =>
    (Expr.operand_phrase left).link before _ after (Expr.operand_phrase right)

theorem Args.operand_phrase : ∀ args : Args, (args.phrase : Phrase σ).Operand
  | .last e => Expr.operand_phrase e
  | .more e before after args =>
    (Expr.operand_phrase e).link before _ after (Args.operand_phrase args)

end

theorem Operator.element_phrase (op : Operator) : (op.phrase : Phrase σ).Element :=
  element_symbol op.isPlainSymbol_char (by cases op <;> decide)

mutual

theorem Expr.element_phrase : ∀ e : Expr, (e.phrase : Phrase σ).Element
  | .name n => element_word n.text n.isSmallWord_text
  | .number n => element_word n.text n.isSmallWord_text
  | .column table before after column =>
    ((element_word table.text _).link before
      (element_symbol _ (by decide))).link after (element_word column.text _)
  | .call n before inside args after =>
    (element_word n.text _).link before ((Args.arguments_phrase args).parens inside after)
  | .callNone n before inside =>
    (element_word n.text _).link before (element_noArguments inside)
  | .group inside e after => (Expr.element_phrase e).arguments.parens inside after
  | .binary left before op after right =>
    ((Expr.element_phrase left).link before op.element_phrase).link after
      (Expr.element_phrase right)

theorem Args.arguments_phrase : ∀ args : Args, (args.phrase : Phrase σ).Arguments
  | .last e => (Expr.element_phrase e).arguments
  | .more e before after args =>
    ((Expr.element_phrase e).arguments.link before arguments_comma).link after
      (Args.arguments_phrase args)

end

/-! ## What the tokens are -/

/-- The symbols of expressions. -/
def symbols : List Char :=
  "().,+-*/".toList

/-- The tokens of expressions. -/
inductive IsToken : Text → Prop
  | name (n : Name) : IsToken n.text
  | number (n : Number) : IsToken n.text
  | symbol {c : Char} (h : c ∈ symbols) : IsToken [c]

theorem Operator.char_mem_symbols (op : Operator) : op.char ∈ symbols := by
  cases op <;> decide

mutual

theorem Expr.isToken_of_mem : ∀ {e : Expr} {t : Text}, t ∈ e.tokens → IsToken t
  | .name n, t, h => by
    rw [mem_singleton.1 h]
    exact .name n
  | .number n, t, h => by
    rw [mem_singleton.1 h]
    exact .number n
  | .column table _ _ column, t, h => by
    simp only [Expr.tokens, mem_cons, not_mem_nil, or_false] at h
    rcases h with rfl | rfl | rfl
    · exact .name table
    · exact .symbol (by decide)
    · exact .name column
  | .call n _ _ args _, t, h => by
    simp only [Expr.tokens, mem_append, mem_cons, not_mem_nil, or_false] at h
    rcases h with ((rfl | rfl) | h) | rfl
    · exact .name n
    · exact .symbol (by decide)
    · exact Args.isToken_of_mem h
    · exact .symbol (by decide)
  | .callNone n _ _, t, h => by
    simp only [Expr.tokens, mem_cons, not_mem_nil, or_false] at h
    rcases h with rfl | rfl | rfl
    · exact .name n
    · exact .symbol (by decide)
    · exact .symbol (by decide)
  | .group _ e _, t, h => by
    simp only [Expr.tokens, mem_append, mem_singleton] at h
    rcases h with (rfl | h) | rfl
    · exact .symbol (by decide)
    · exact Expr.isToken_of_mem h
    · exact .symbol (by decide)
  | .binary left _ op _ right, t, h => by
    simp only [Expr.tokens, mem_append, mem_singleton] at h
    rcases h with (h | rfl) | h
    · exact Expr.isToken_of_mem h
    · exact .symbol op.char_mem_symbols
    · exact Expr.isToken_of_mem h

theorem Args.isToken_of_mem : ∀ {args : Args} {t : Text}, t ∈ args.tokens → IsToken t
  | .last e, t, h => Expr.isToken_of_mem (e := e) h
  | .more e _ _ args, t, h => by
    simp only [Args.tokens, mem_append, mem_singleton] at h
    rcases h with (h | rfl) | h
    · exact Expr.isToken_of_mem h
    · exact .symbol (by decide)
    · exact Args.isToken_of_mem h

end

namespace IsToken

theorem notMem_keywords {t : Text} (h : IsToken t) : t ∉ keywords := by
  have hkeywords : ∀ word ∈ keywords, word.head?.any Char.isDigit = false ∧ 1 < word.length := by
    decide
  intro hmem
  obtain ⟨hstart, hlength⟩ := hkeywords t hmem
  cases h with
  | name n => exact n.free hmem
  | number n =>
    obtain ⟨c, rest, hcons⟩ := exists_cons_of_ne_nil n.ne_nil
    have hdigit := all_eq_true.1 n.digits c (by rw [hcons]; exact mem_cons_self)
    rw [hcons] at hstart
    simp [hdigit] at hstart
  | symbol hc => simp at hlength

/-- No token is a symbol that expressions do not have. -/
theorem ne_singleton {t : Text} (h : IsToken t) {c : Char} (hword : isWordChar c = false)
    (hc : c ∉ symbols) : t ≠ [c] := by
  rintro rfl
  have hsmall : isSmallWord [c] = false := by simp [isSmallWord, hword]
  generalize ht : [c] = t at h
  cases h with
  | name n =>
    rw [ht, n.isSmallWord_text] at hsmall
    exact Bool.noConfusion hsmall
  | number n =>
    rw [ht, n.isSmallWord_text] at hsmall
    exact Bool.noConfusion hsmall
  | symbol hmem =>
    rw [cons.injEq] at ht
    exact hc (ht.1 ▸ hmem)

theorem lowercase_eq {t : Text} (h : IsToken t) : t.lowercase = t := by
  cases h with
  | name n => exact n.lower
  | number n =>
    refine Text.lowercase_of_forall fun c hc => ?_
    have hdigit := Char.isDigit_iff_toNat.1 (all_eq_true.1 n.digits c hc)
    have hnine : '9'.toNat = 57 := rfl
    omega
  | symbol hmem =>
    have hsymbols : symbols.all (fun c => decide (c.toNat < 0x41)) := by decide
    have hlt := of_decide_eq_true (all_eq_true.1 hsymbols _ hmem)
    exact Text.lowercase_of_forall (forall_mem_singleton.2 hlt)

end IsToken

theorem Expr.notMem_of_keyword (e : Expr) {word : Text} (h : word ∈ keywords) : word ∉ e.tokens :=
  fun hmem => (Expr.isToken_of_mem hmem).notMem_keywords h

theorem Expr.notMem_of_symbol (e : Expr) {c : Char} (hword : isWordChar c = false)
    (hc : c ∉ symbols) : [c] ∉ e.tokens :=
  fun hmem => (Expr.isToken_of_mem hmem).ne_singleton hword hc rfl

end Query

end SqlScript
