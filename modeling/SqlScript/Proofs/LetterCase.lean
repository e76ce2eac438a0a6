import SqlScript.Proofs.Folding
import SqlScript.Proofs.SmallLetters

/-!
# Small letters in place

Putting an ASCII text into small letters keeps its length, its tokens with their places, and what
stands between them, comments with their capitals among it (`BigQuery.lowerCase_keeps_places`). The
result is the text with its capitals made small at the offsets of the tokens outside of literals
(`BigQuery.lowerCase_eq`). So it has the small form of the text, and with it its tokens.
-/

namespace SqlScript

open List Text

/-! ## Capitals at some offsets -/

namespace Text

/-- The text with the ASCII capitals at some offsets made small, when it stands at an offset. -/
def lowerWhere (p : Nat → Bool) (offset : Nat) : Text → Text
  | [] => []
  | c :: t => (if p offset then c.toLower else c) :: lowerWhere p (offset + c.utf8Size) t

variable {p : Nat → Bool} {offset : Nat} {t : Text}

theorem lowerWhere_append (a b : Text) : lowerWhere p offset (a ++ b) =
    lowerWhere p offset a ++ lowerWhere p (offset + a.byteSize) b := by
  induction a generalizing offset with
  | nil => rfl
  | cons c a ih => simp [lowerWhere, ih, Nat.add_assoc]

theorem toLowerAscii_lowerWhere : (lowerWhere p offset t).toLowerAscii = t.toLowerAscii := by
  induction t generalizing offset with
  | nil => rfl
  | cons c t ih =>
    rw [lowerWhere, toLowerAscii_cons, toLowerAscii_cons, ih]
    split
    · rw [toLower_toLower]
    · rfl

theorem byteSize_lowerWhere : (lowerWhere p offset t).byteSize = t.byteSize := by
  rw [← byteSize_toLowerAscii, toLowerAscii_lowerWhere, byteSize_toLowerAscii]

theorem lowerWhere_lowerWhere :
    lowerWhere p offset (lowerWhere p offset t) = lowerWhere p offset t := by
  induction t generalizing offset with
  | nil => rfl
  | cons c t ih =>
    rw [lowerWhere, lowerWhere]
    split
    · rw [utf8Size_toLower, toLower_toLower, ih]
    · rw [ih]

theorem lowerWhere_eq {b : Bool}
    (h : ∀ i, offset ≤ i → i < offset + t.byteSize → p i = b) :
    lowerWhere p offset t = if b then t.toLowerAscii else t := by
  induction t generalizing offset with
  | nil => cases b <;> rfl
  | cons c t ih =>
    have hpos := c.utf8Size_pos
    rw [byteSize_cons] at h
    rw [lowerWhere, h offset (Nat.le_refl _) (by omega),
      ih fun i hle hlt => h i (by omega) (by omega)]
    cases b <;> rfl

theorem slice?_lowerWhere {start stop : Nat} {m : Text} (h : slice? t start stop = some m) :
    slice? (lowerWhere p 0 t) start stop = some (lowerWhere p start m) := by
  obtain ⟨a, b, rfl, rfl, rfl⟩ := slice?_eq_some_iff.1 h
  rw [lowerWhere_append, lowerWhere_append, Nat.zero_add]
  exact slice?_eq_some_iff.2 ⟨_, _, rfl, byteSize_lowerWhere, by simp only [byteSize_lowerWhere]⟩

theorem Ascii.lowerWhere (h : t.Ascii) : (lowerWhere p offset t).Ascii := by
  intro c hc
  have hmem : c.toLower ∈ t.toLowerAscii :=
    @toLowerAscii_lowerWhere p offset t ▸ mem_map_of_mem hc
  obtain ⟨d, hd, heq⟩ := mem_map.1 hmem
  have hcases : ∀ e : Char, e.toLower.toNat = e.toNat ∨
      e.toNat ≤ 90 ∧ e.toLower.toNat = e.toNat + 32 := fun e =>
    (toLower_cases e).imp (congrArg Char.toNat) fun hcapital => ⟨hcapital.1.2, hcapital.2⟩
  have hlt := h d hd
  have hc := hcases c
  have hd := hcases d
  rw [heq] at hd
  omega

end Text

/-! ## Tokens outside of literals -/

/-- The token in small letters, unless it stands in a literal. -/
def Token.lowered (token : Token) : Token :=
  { token with text := if token.inQuotes then token.text else token.text.toLowerAscii }

/-- Whether a token outside of literals stands at the offset. -/
def isLoose (run : List Token) (i : Nat) : Bool :=
  run.any fun token => !token.inQuotes && (token.start ≤ i && i < token.stop)

variable {sql : Text} {run : List Token} {token : Token} {i : Nat}

theorem isLoose_eq_false (h : ∀ token ∈ run, token.stop ≤ i ∨ i < token.start) :
    isLoose run i = false := by
  refine any_eq_false.2 fun token hmem => ?_
  have := h token hmem
  simp
  omega

theorem isLoose_cons (h : token.stop ≤ i) : isLoose (token :: run) i = isLoose run i := by
  simp [isLoose, Nat.not_lt.2 h]

/-- Whether a token is put into small letters is told at each of its offsets. -/
theorem Laid.isLoose_eq (h : Laid sql run) (hmem : token ∈ run) (hle : token.start ≤ i)
    (hlt : i < token.stop) : isLoose run i = !token.inQuotes := by
  induction run with
  | nil => cases hmem
  | cons first run ih =>
    have hordered := (pairwise_cons.1 h.ordered).1
    rcases mem_cons.1 hmem with rfl | hmem
    · have hlater : isLoose run i = false :=
        isLoose_eq_false fun other hother => .inr (Nat.lt_of_lt_of_le hlt (hordered other hother))
      rw [isLoose, any_cons, ← isLoose, hlater]
      simp [hle, hlt]
    · rw [isLoose_cons ((hordered token hmem).trans hle)]
      exact ih (h.sublist (sublist_cons_self first run)) hmem

/-- In the text in small letters a token is cut out in small letters. -/
theorem Laid.slice_lowered (h : Laid sql run) (hmem : token ∈ run) :
    (lowerWhere (isLoose run) 0 sql).slice? token.start token.stop = some token.lowered.text := by
  have hslice := h.slice token hmem
  rw [slice?_lowerWhere hslice, lowerWhere_eq fun i hle hlt =>
    h.isLoose_eq hmem hle (add_byteSize_of_slice? hslice ▸ hlt), Token.lowered]
  cases token.inQuotes <;> rfl

theorem tokens_lowerWhere (sql : Text) :
    tokens (lowerWhere (isLoose (tokens sql)) 0 sql) = (tokens sql).map Token.lowered := by
  have hsame : (tokens (lowerWhere (isLoose (tokens sql)) 0 sql)).map Token.small =
      (tokens sql).map Token.small := by
    rw [← tokens_toLowerAscii, toLowerAscii_lowerWhere, tokens_toLowerAscii]
  -- the tokens stand at the same offsets, and what is cut out there is known
  refine ext_getElem (by simpa using congrArg length hsame) fun k hk hk' => ?_
  rw [length_map] at hk'
  have hplace := getElem_of_eq hsame (by rwa [length_map])
  rw [getElem_map, getElem_map, Token.small, Token.small, Token.mk.injEq] at hplace
  obtain ⟨hstart, hstop, -, hquotes⟩ := hplace
  have hslice := (laid_tokens _).slice _ (getElem_mem hk)
  rw [hstart, hstop, (laid_tokens sql).slice_lowered (getElem_mem hk'), Option.some.injEq] at hslice
  rw [getElem_map]
  exact (Token.mk.injEq ..).mpr ⟨hstart, hstop, hslice.symm, hquotes⟩

namespace BigQuery

/-- What stands behind an offset is put into small letters token by token. -/
theorem lowerTokens_eq (h : Laid sql run) (hascii : sql.Ascii) {p : Nat → Bool} {a b : Text}
    (hsql : sql = a ++ b) (hbehind : ∀ token ∈ run, a.byteSize ≤ token.start)
    (hp : ∀ i, a.byteSize ≤ i → p i = isLoose run i) :
    lowerTokens sql a.byteSize run = .ok (lowerWhere p a.byteSize b) := by
  induction run generalizing a b with
  | nil =>
    rw [hsql, lowerTokens, sliceFrom_append rfl, lowerWhere_eq fun i hle _ => hp i hle]
    rfl
  | cons token run ih =>
    have hlater := h.sublist (sublist_cons_self token run)
    obtain ⟨hfirst, hrest⟩ := forall_mem_cons.1 hbehind
    rw [lowerTokens]
    split
    · rename_i hquotes
      exact ih hlater hsql hrest fun i hle => by simp [hp i hle, isLoose, hquotes]
    · rename_i hquotes
      obtain ⟨x, y, hx, hstart, hstop⟩ := slice?_eq_some_iff.1 (h.slice token mem_cons_self)
      obtain ⟨gap, rfl, rfl⟩ := exists_append_of_byteSize_le (hsql.symm.trans hx) (by omega)
      rw [← byteSize_append] at hstop
      have hnext := ih hlater (hx.trans (append_assoc _ _ _).symm)
        (fun other hother => hstop ▸ (pairwise_cons.1 h.ordered).1 other hother)
        fun i hle => (hp i (by simp only [byteSize_append] at hle; omega)).trans
          (isLoose_cons (hstop ▸ hle))
      have hgap : sql.slice a.byteSize token.start = .ok gap := by
        rw [hsql]
        exact slice_append rfl (by rw [← hstart, byteSize_append])
      have htext : token.text.Ascii := fun c hc => hascii c (by simp [hx, hc])
      have hbefore : lowerWhere p a.byteSize gap = gap := by
        refine lowerWhere_eq (b := false) fun i hle hlt => (hp i hle).trans ?_
        rw [← byteSize_append, hstart] at hlt
        exact isLoose_eq_false fun other hother => .inr (hlt.trans_le (h.start_le hother))
      have hat : lowerWhere p token.start token.text = token.text.toLowerAscii := by
        refine lowerWhere_eq (b := true) fun i hle hlt => (hp i (hfirst.trans hle)).trans ?_
        rw [h.isLoose_eq mem_cons_self hle (by rw [byteSize_append] at hstop; omega)]
        simpa using hquotes
      rw [hstop] at hnext
      rw [hgap, ok_bind, hnext, ok_bind, htext.lowercase_eq, lowerWhere_append, lowerWhere_append,
        hbefore, ← byteSize_append, hstart, hat, ← hstart, ← byteSize_append, hstop]
      simp [pure, Except.pure]

theorem lowerCase_eq (hascii : sql.Ascii) (hstrict : tokenize sql = .ok run) :
    lowerCase sql = .ok (lowerWhere (isLoose run) 0 sql) := by
  have hrun : tokens sql = run := congrArg Scan.tokens (scan_of_tokenize hstrict)
  rw [lowerCase, hstrict, ok_bind, ← hrun]
  exact lowerTokens_eq (laid_tokens sql) hascii (a := []) rfl (fun _ _ => Nat.zero_le _)
    fun _ _ => rfl

/-- Putting an ASCII text into small letters keeps its tokens in their places and all that stands
between them, and doing it again changes nothing. -/
theorem lowerCase_keeps_places (hascii : ∀ c ∈ sql, c.toNat < 128)
    (hstrict : tokenize sql = .ok run) : ∃ low, lowerCase sql = .ok low ∧
      low.byteSize = sql.byteSize ∧ tokenize low = .ok (run.map Token.lowered) ∧
      (∀ start stop gap, (∀ token ∈ run, token.stop ≤ start ∨ stop ≤ token.start) →
        sql.slice? start stop = some gap → low.slice? start stop = some gap) ∧
      lowerCase low = .ok low := by
  have hscan : Token.scan sql = ⟨run, none⟩ := scan_of_tokenize hstrict
  have htokens : tokenize (lowerWhere (isLoose run) 0 sql) = .ok (run.map Token.lowered) := by
    have hrun : tokens sql = run := congrArg Scan.tokens hscan
    have hopen : (Token.scan (lowerWhere (isLoose run) 0 sql)).openQuote = none := by
      have hlower := fun t => congrArg Scan.openQuote (Token.scanFrom_toLowerAscii t none 0)
      rw [Token.scan, ← hlower, toLowerAscii_lowerWhere, hlower]
      exact congrArg Scan.openQuote hscan
    rw [tokenize, hopen, ← hrun, ← tokens_lowerWhere]
    rfl
  refine ⟨_, lowerCase_eq hascii hstrict, byteSize_lowerWhere, htokens, ?_, ?_⟩
  · intro start stop gap hapart hgap
    rw [slice?_lowerWhere hgap, lowerWhere_eq (b := false) fun i hle hlt => ?_]
    · rfl
    · rw [add_byteSize_of_slice? hgap] at hlt
      exact isLoose_eq_false fun token hmem => by have := hapart token hmem; omega
  · have hsame : isLoose (run.map Token.lowered) = isLoose run := by
      funext i
      rw [isLoose, any_map]
      rfl
    rw [lowerCase_eq (Ascii.lowerWhere hascii) htokens, hsame, lowerWhere_lowerWhere]

theorem lowerCase_keeps_hint :
    let sql : Text := "Sel /* It's */ 'A--B', --HINT X\n--C\nY".toList
    (∀ c ∈ sql, c.toNat < 128) ∧ tokenize sql = .ok (tokens sql) ∧
      lowerCase sql = .ok "sel /* It's */ 'A--B', --hint x\n--C\ny".toList ∧
      tokenize "sel /* It's */ 'A--B', --hint x\n--C\ny".toList =
        .ok ((tokens sql).map Token.lowered) := by
  have hlower : lowerCase "Sel /* It's */ 'A--B', --HINT X\n--C\nY".toList =
      .ok "sel /* It's */ 'A--B', --hint x\n--C\ny".toList :=
    eq_ok_of_toOption (by decide +kernel)
  have hstrict := tokenize_of_foldl
    (t := "Sel /* It's */ 'A--B', --HINT X\n--C\nY".toList) (by decide +kernel)
  have hascii : ∀ c ∈ "Sel /* It's */ 'A--B', --HINT X\n--C\nY".toList, c.toNat < 128 := by
    simp
  obtain ⟨low, hlow, -, htokens, -, -⟩ := lowerCase_keeps_places hascii hstrict
  obtain rfl := Except.ok.inj (hlower.symm.trans hlow)
  exact ⟨hascii, hstrict, hlower, htokens⟩

end BigQuery

end SqlScript
