import SqlScript.Proofs.Slice
import SqlScript.Token.Basic

/-!
# The places of tokens

The tokens of a text lie in it one after another (`Laid`) : each is cut out of the text at its
offsets, none is empty, and each stops before the next one starts. So each starts at a place
(`Laid.isPlace_start`), the text between two such places can be cut out
(`Text.exists_slice?_of_isPlace`), and the tokens of a stretch of the list are those that lie
between its first and its last one (`Laid.filter_within`), or before the one that follows them
(`Laid.filter_until`). The tokens that start before an offset are the first ones
(`Laid.start_lt_iff`), so a token is counted by where it starts (`Laid.countP_start`).
-/

namespace SqlScript

open List Text

variable {front rest stretch : List Token} {i : Nat} {piece : Piece} {t : Text} {first : Token}

/-- The tokens lie in the text, in order. -/
structure Laid (sql : Text) (tokens : List Token) : Prop where
  slice : ∀ token ∈ tokens, sql.slice? token.start token.stop = some token.text
  nonempty : ∀ token ∈ tokens, token.text ≠ []
  ordered : tokens.Pairwise fun a b => a.stop ≤ b.start

/-! ## The steps of the scanner -/

/-- The token of a piece, if it is a word or a symbol. -/
def Piece.tokens (offset : Nat) (quote : Option OpenQuote) : Piece → List Token
  | word run => [⟨offset, offset + run.byteSize, run, quote.isSome⟩]
  | symbol c => [⟨offset, offset + c.utf8Size, [c], quote.isSome⟩]
  | blank _ => []
  | comment _ => []

/-- The literal that is open after a piece. -/
def Piece.quoteAfter (offset : Nat) (quote : Option OpenQuote) : Piece → Option OpenQuote
  | symbol c => Token.quoteAfter quote offset c
  | _ => quote

namespace Token

theorem eq_nil_of_piece?_eq_none {inQuotes : Bool} (h : piece? inQuotes t = none) : t = [] := by
  cases t with
  | nil => rfl
  | cons c t =>
    rw [piece?] at h
    split at h
    · simp at h
    · split at h
      · simp at h
      · split at h <;> simp at h

/-- A text is empty, or a piece and a shorter text. -/
@[elab_as_elim]
theorem piece_induction {motive : Option OpenQuote → Text → Prop} (nil : ∀ quote, motive quote [])
    (piece : ∀ quote piece rest, piece? quote.isSome (piece.text ++ rest) = some (piece, rest) →
      (∀ quote', motive quote' rest) → motive quote (piece.text ++ rest))
    (quote : Option OpenQuote) (t : Text) : motive quote t := by
  -- by induction on the length of what is left, since a piece may be of any length
  induction hlength : t.length using Nat.strongRecOn generalizing t quote with
  | ind n ih =>
    subst hlength
    cases hpiece : piece? quote.isSome t with
    | none =>
      obtain rfl := eq_nil_of_piece?_eq_none hpiece
      exact nil quote
    | some found =>
      obtain ⟨first, rest⟩ := found
      obtain ⟨rfl, -⟩ := append_of_piece? hpiece
      exact piece quote first rest hpiece fun quote' =>
        ih rest.length (length_lt_of_piece? hpiece) quote' rest rfl

theorem scanFrom_nil (offset : Nat) (quote : Option OpenQuote) :
    scanFrom offset quote [] = ⟨[], quote⟩ := by
  rw [scanFrom]
  rfl

theorem tokens_scanFrom_nil (offset : Nat) (quote : Option OpenQuote) :
    (scanFrom offset quote []).tokens = [] :=
  congrArg Scan.tokens (scanFrom_nil offset quote)

/-- One step of the scanner. -/
theorem scanFrom_piece (offset : Nat) (quote : Option OpenQuote) {rest : Text}
    (h : piece? quote.isSome t = some (piece, rest)) :
    let later := scanFrom (offset + piece.text.byteSize) (piece.quoteAfter offset quote) rest
    scanFrom offset quote t = ⟨piece.tokens offset quote ++ later.tokens, later.openQuote⟩ := by
  intro later
  rw [scanFrom]
  split
  · rename_i hnone
    simp [hnone] at h
  · rename_i piece' rest' hsome
    rw [hsome, Option.some.injEq, Prod.mk.injEq] at h
    obtain ⟨rfl, rfl⟩ := h
    cases piece' <;> rfl

theorem tokens_scanFrom (offset : Nat) (quote : Option OpenQuote) {rest : Text}
    (h : piece? quote.isSome t = some (piece, rest)) :
    (scanFrom offset quote t).tokens = piece.tokens offset quote ++
      (scanFrom (offset + piece.text.byteSize) (piece.quoteAfter offset quote) rest).tokens :=
  congrArg Scan.tokens (scanFrom_piece offset quote h)

/-- The token of a piece is the text of the piece at its place. -/
theorem eq_of_mem_piece {offset : Nat} {quote : Option OpenQuote} {token : Token}
    (h : token ∈ piece.tokens offset quote) :
    token = ⟨offset, offset + piece.text.byteSize, piece.text, quote.isSome⟩ := by
  cases piece <;> simp_all [Piece.tokens, Piece.text]

/-- The tokens of the rest of a text are laid, and stand in the rest. -/
theorem laid_scanFrom (t before : Text) (quote : Option OpenQuote) :
    Laid (before ++ t) (scanFrom before.byteSize quote t).tokens ∧
      ∀ token ∈ (scanFrom before.byteSize quote t).tokens, before.byteSize ≤ token.start := by
  induction quote, t using piece_induction generalizing before with
  | nil quote =>
    rw [tokens_scanFrom_nil]
    exact ⟨⟨by simp, by simp, .nil⟩, by simp⟩
  | piece quote piece rest hpiece ih =>
    obtain ⟨hlaid, hstart⟩ := ih (piece.quoteAfter before.byteSize quote) (before ++ piece.text)
    rw [append_assoc, byteSize_append] at hlaid
    rw [byteSize_append] at hstart
    have hslice : (before ++ (piece.text ++ rest)).slice? before.byteSize
        (before.byteSize + piece.text.byteSize) = some piece.text :=
      slice?_append before piece.text rest
    rw [tokens_scanFrom _ _ hpiece]
    refine ⟨⟨?_, ?_, pairwise_append.2 ⟨?_, hlaid.ordered, ?_⟩⟩, ?_⟩
    · refine forall_mem_append.2 ⟨fun token hmem => ?_, hlaid.slice⟩
      rw [eq_of_mem_piece hmem, hslice]
    · refine forall_mem_append.2 ⟨fun token hmem => ?_, hlaid.nonempty⟩
      rw [eq_of_mem_piece hmem]
      exact (append_of_piece? hpiece).2
    · cases piece <;> simp [Piece.tokens]
    · intro token hmem later hlater
      rw [eq_of_mem_piece hmem]
      exact hstart later hlater
    · refine forall_mem_append.2 ⟨fun token hmem => ?_, fun token hmem => ?_⟩
      · exact Nat.le_of_eq (by rw [eq_of_mem_piece hmem])
      · exact Nat.le_trans (Nat.le_add_right _ _) (hstart token hmem)

end Token

theorem scan_of_tokenize {run : List Token} (h : tokenize t = .ok run) :
    Token.scan t = ⟨run, none⟩ := by
  unfold tokenize at h
  dsimp only at h
  split at h
  · rename_i hnone
    rw [← Except.ok.inj h, ← hnone]
  · cases h

theorem laid_tokens (sql : Text) : Laid sql (tokens sql) :=
  (Token.laid_scanFrom sql [] none).1

namespace Laid

variable {sql : Text} {tokens later : List Token} {token : Token}

theorem sublist (h : Laid sql tokens) (hsub : later.Sublist tokens) : Laid sql later :=
  ⟨fun token hmem => h.slice token (hsub.subset hmem),
    fun token hmem => h.nonempty token (hsub.subset hmem), h.ordered.sublist hsub⟩

theorem start_lt_stop (h : Laid sql tokens) (hmem : token ∈ tokens) : token.start < token.stop := by
  have hsize := add_byteSize_of_slice? (h.slice token hmem)
  have hpos : token.text.byteSize ≠ 0 :=
    fun hzero => h.nonempty token hmem (byteSize_eq_zero_iff.1 hzero)
  omega

/-- No token starts before the first one. -/
theorem start_le (h : Laid sql (first :: tokens))
    (hmem : token ∈ first :: tokens) : first.start ≤ token.start := by
  rcases mem_cons.1 hmem with rfl | hmem
  · exact Nat.le_refl _
  · have hstop := (pairwise_cons.1 h.ordered).1 token hmem
    have hlt := h.start_lt_stop mem_cons_self
    omega

theorem isPlace_start (h : Laid sql tokens) (hmem : token ∈ tokens) : sql.IsPlace token.start := by
  obtain ⟨a, b, htext, hstart, -⟩ := slice?_eq_some_iff.1 (h.slice token hmem)
  exact isPlace_iff.2 ⟨a, token.text ++ b, htext, hstart⟩

theorem isPlace_stop (h : Laid sql tokens) (hmem : token ∈ tokens) : sql.IsPlace token.stop := by
  obtain ⟨a, b, htext, -, hstop⟩ := slice?_eq_some_iff.1 (h.slice token hmem)
  refine isPlace_iff.2 ⟨a ++ token.text, b, by rw [htext, append_assoc], ?_⟩
  rw [byteSize_append, hstop]

/-- The tokens of a stretch are those that lie between two offsets, if the others lie before the one
and after the other. -/
theorem filter_between {start stop : Nat}
    (h : Laid sql (front ++ (stretch ++ rest))) (hfront : ∀ token ∈ front, token.stop ≤ start)
    (hstretch : ∀ token ∈ stretch, start ≤ token.start ∧ token.stop ≤ stop)
    (hrest : ∀ token ∈ rest, stop ≤ token.start) : (front ++ (stretch ++ rest)).filter
      (fun token => start ≤ token.start && token.stop ≤ stop) = stretch := by
  have houtside : ∀ token ∈ front ++ (stretch ++ rest), token.stop ≤ start ∨ stop ≤ token.start →
      ¬ (start ≤ token.start && token.stop ≤ stop) := by
    intro token hmem hout
    have hlt := h.start_lt_stop hmem
    simp only [Bool.and_eq_true, decide_eq_true_eq]
    omega
  rw [filter_append, filter_append]
  have hfrontNil := filter_eq_nil_iff.2 fun token hmem =>
    houtside token (mem_append_left _ hmem) (.inl (hfront token hmem))
  have hrestNil := filter_eq_nil_iff.2 fun token hmem =>
    houtside token (mem_append_right _ (mem_append_right _ hmem))
      (.inr (hrest token hmem))
  have hself : stretch.filter (fun token => start ≤ token.start && token.stop ≤ stop) =
      stretch := by
    refine filter_eq_self.2 fun token hmem => ?_
    simpa using hstretch token hmem
  rw [hfrontNil, hrestNil, hself, nil_append, append_nil]

/-- The tokens from one to another are those that lie between the start of the one and the end of
the other. -/
theorem filter_within {last : Token}
    (h : Laid sql (front ++ (stretch ++ rest))) (hfirst : stretch.head? = some first)
    (hlast : stretch.getLast? = some last) : (front ++ (stretch ++ rest)).filter
      (fun token => first.start ≤ token.start && token.stop ≤ last.stop) = stretch := by
  obtain ⟨-, hinner, hcross⟩ := pairwise_append.1 h.ordered
  obtain ⟨hstretch, -, hcross'⟩ := pairwise_append.1 hinner
  obtain ⟨tail, rfl⟩ := head?_eq_some_iff.1 hfirst
  obtain ⟨init, hinit⟩ := getLast?_eq_some_iff.1 hlast
  have hlastMem : last ∈ first :: tail := mem_of_getLast? hlast
  have hlaid : Laid sql (first :: tail) := h.sublist
    ((sublist_append_left _ rest).trans (sublist_append_right front _))
  refine h.filter_between (fun token hmem => hcross token hmem first (by simp)) ?_
    (fun token hmem => hcross' last hlastMem token hmem)
  intro token hmem
  refine ⟨hlaid.start_le hmem, ?_⟩
  rw [hinit] at hmem hstretch
  rcases mem_append.1 hmem with hmem' | hmem'
  · have hbefore := (pairwise_append.1 hstretch).2.2 token hmem' last (by simp)
    have hlt := hlaid.start_lt_stop hlastMem
    omega
  · obtain rfl := mem_singleton.1 hmem'
    exact Nat.le_refl _

/-- The tokens from one up to another are those that lie between the starts of the two. -/
theorem filter_until {boundary : Token} (h : Laid sql (front ++ (stretch ++ boundary :: rest)))
    (hfirst : (stretch ++ [boundary]).head? = some first) :
    (front ++ (stretch ++ boundary :: rest)).filter
      (fun token => first.start ≤ token.start && token.stop ≤ boundary.start) = stretch := by
  obtain ⟨-, hinner, hcross⟩ := pairwise_append.1 h.ordered
  have hcross' := (pairwise_append.1 hinner).2.2
  obtain ⟨tail, htail⟩ := head?_eq_some_iff.1 hfirst
  have hsplit : stretch ++ boundary :: rest = first :: (tail ++ rest) := by
    rw [← cons_append, ← htail, append_assoc]
    rfl
  have hlaid : Laid sql (first :: (tail ++ rest)) := by
    rw [← hsplit]
    exact h.sublist (sublist_append_right front _)
  have hlaid' : Laid sql (boundary :: rest) := h.sublist
    ((sublist_append_right stretch _).trans (sublist_append_right front _))
  refine h.filter_between (fun token hmem => hcross token hmem first (by simp [hsplit])) ?_
    (fun token hmem => hlaid'.start_le hmem)
  intro token hmem
  refine ⟨hlaid.start_le ?_, hcross' token hmem boundary mem_cons_self⟩
  rw [← hsplit]
  exact mem_append_left _ hmem

/-! ## How many tokens start before an offset -/

/-- The tokens that start before an offset are the first ones. -/
theorem start_lt_iff (h : Laid sql tokens) (hget : tokens[i]? = some token)
    (offset : Nat) : token.start < offset ↔ i < tokens.countP (·.start < offset) := by
  induction tokens generalizing i with
  | nil => simp at hget
  | cons first tokens ih =>
    by_cases hfirst : first.start < offset
    · rw [countP_cons_of_pos (by simpa using hfirst)]
      cases i with
      | zero =>
        obtain rfl : first = token := by simpa using hget
        simp [hfirst]
      | succ i =>
        rw [ih (h.sublist (sublist_cons_self _ _)) (by simpa using hget)]
        omega
    · have hzero : (first :: tokens).countP (·.start < offset) = 0 := by
        rw [countP_eq_zero]
        intro other hmem
        have hle := h.start_le hmem
        simp only [decide_eq_true_eq]
        omega
      have hle := h.start_le (mem_of_getElem? hget)
      rw [hzero]
      omega

theorem countP_start (h : Laid sql tokens) (hget : tokens[i]? = some token) :
    tokens.countP (·.start < token.start) = i := by
  have hself := h.start_lt_iff hget token.start
  cases i with
  | zero => omega
  | succ i =>
    obtain ⟨hi, rfl⟩ := List.getElem?_eq_some_iff.1 hget
    have hordered := pairwise_iff_getElem.1 h.ordered i (i + 1) (by omega) hi (by omega)
    have hlt := h.start_lt_stop (getElem_mem (show i < tokens.length by omega))
    have hbelow := (h.start_lt_iff (getElem?_eq_getElem (by omega)) _).1
      (Nat.lt_of_lt_of_le hlt hordered)
    omega

/-- A token is found by the offset where it stops. -/
theorem findIdx_stop (h : Laid sql tokens) (hget : tokens[i]? = some token) :
    tokens.findIdx (fun other => other.stop == token.stop) = i := by
  obtain ⟨hi, rfl⟩ := List.getElem?_eq_some_iff.1 hget
  refine (findIdx_eq hi).2 ⟨beq_self_eq_true _, fun j hj => beq_false_of_ne ?_⟩
  have hordered := pairwise_iff_getElem.1 h.ordered j i (by omega) hi hj
  have hlt := h.start_lt_stop (getElem_mem hi)
  omega

/-- More tokens start before the second offset just if one starts between the two. -/
theorem countP_lt_iff (h : Laid sql tokens) (a b : Nat) :
    tokens.countP (·.start < a) < tokens.countP (·.start < b) ↔
      ∃ token ∈ tokens, a ≤ token.start ∧ token.start < b := by
  constructor
  · intro hlt
    have hlength : tokens.countP (·.start < a) < tokens.length :=
      Nat.lt_of_lt_of_le hlt countP_le_length
    have hget := getElem?_eq_getElem hlength
    refine ⟨_, getElem_mem hlength, ?_, (h.start_lt_iff hget b).2 hlt⟩
    have hiff := h.start_lt_iff hget a
    omega
  · rintro ⟨token, hmem, hle, hlt⟩
    obtain ⟨i, hget⟩ := getElem?_of_mem hmem
    have hbelow := (h.start_lt_iff hget b).1 hlt
    have habove := h.start_lt_iff hget a
    omega

end Laid

/-- Between two places of a text there is a slice. -/
theorem Text.exists_slice?_of_isPlace {start stop : Nat} (hstart : t.IsPlace start)
    (hstop : t.IsPlace stop) (hle : start ≤ stop) : ∃ m, t.slice? start stop = some m := by
  obtain ⟨a, b, rfl, rfl⟩ := isPlace_iff.1 hstart
  obtain ⟨a', b', htext, rfl⟩ := isPlace_iff.1 hstop
  obtain ⟨m, rfl, rfl⟩ := exists_append_of_byteSize_le htext hle
  exact ⟨m, slice?_eq_some_iff.2 ⟨a, b', rfl, rfl, by simp⟩⟩

end SqlScript
