import SqlScript.Text.Blank
import SqlScript.Text.Letter
import SqlScript.Text.Numeral

/-!
# Texts and byte offsets

A text is a list of characters. Places in a text are UTF-8 byte offsets: the offset of a place is
the size of what stands before it. `slice?` cuts a text at two offsets and answers only when both
are places between characters, in order.

Below that stand the few operations every part of the library uses: trimming blanks, comparing up
to ASCII case, cutting a text at the first occurrence of another one, and taking off quotes.
-/

namespace SqlScript

/-- A text, as the list of its characters. -/
abbrev Text := List Char

/-- A letter or numeral of any script. -/
def isAlphanumeric (c : Char) : Bool :=
  isLetter c || isNumeral c

namespace Text

/-! ## Offsets -/

/-- The length of a text in UTF-8 bytes. -/
def byteSize : Text → Nat
  | [] => 0
  | c :: t => c.utf8Size + byteSize t

/-- The text from a byte offset on, if the offset is a place of the text. -/
def dropBytes? : Text → Nat → Option Text
  | t, 0 => some t
  | [], _ + 1 => none
  | c :: t, n + 1 => if c.utf8Size ≤ n + 1 then dropBytes? t (n + 1 - c.utf8Size) else none

/-- The text up to a byte offset, if the offset is a place of the text. -/
def takeBytes? : Text → Nat → Option Text
  | _, 0 => some []
  | [], _ + 1 => none
  | c :: t, n + 1 =>
    if c.utf8Size ≤ n + 1 then (takeBytes? t (n + 1 - c.utf8Size)).map (c :: ·) else none

/-- The text between two byte offsets, if both are places of the text and in order. -/
def slice? (t : Text) (start stop : Nat) : Option Text :=
  if start ≤ stop then (dropBytes? t start).bind (takeBytes? · (stop - start)) else none

/-! ## Blanks -/

/-- The text without its leading blanks. -/
def trimStart (t : Text) : Text :=
  t.dropWhile isBlank

/-- The text without its trailing blanks. -/
def trimEnd (t : Text) : Text :=
  (t.reverse.dropWhile isBlank).reverse

/-- The text without leading and trailing blanks. -/
def trim (t : Text) : Text :=
  trimEnd (trimStart t)

/-! ## Comparison up to ASCII case -/

/-- The text with its ASCII capitals made small. -/
def toLowerAscii (t : Text) : Text :=
  t.map Char.toLower

/-- Whether two texts are equal up to the case of ASCII letters. -/
def eqFolded (a b : Text) : Bool :=
  toLowerAscii a == toLowerAscii b

/-! ## Cutting -/

/-- What follows `lead` in the text, if the text starts with `lead` character by character under
the comparison `same`. -/
def stripBy? (same : Char → Char → Bool) : Text → Text → Option Text
  | [], t => some t
  | _ :: _, [] => none
  | p :: lead, c :: t => if same p c then stripBy? same lead t else none

/-- What follows `lead` in the text, if the text starts with it. -/
def strip? (t lead : Text) : Option Text :=
  stripBy? (· == ·) lead t

/-- What follows `lead` in the text, if the text starts with it up to ASCII case. -/
def stripFolded? (t lead : Text) : Option Text :=
  stripBy? (fun a b => a.toLower == b.toLower) lead t

/-- Whether the text starts with `lead` up to ASCII case. -/
def startsWithFolded (t lead : Text) : Bool :=
  (t.stripFolded? lead).isSome

/-- The text before and after the first place where `strip` succeeds. -/
def cutBy? (strip : Text → Option Text) : Text → Option (Text × Text)
  | [] => (strip []).map ([], ·)
  | c :: t =>
    match strip (c :: t) with
    | some rest => some ([], rest)
    | none => (cutBy? strip t).map fun (before, rest) => (c :: before, rest)

/-- The text before and after the first occurrence of `mark`. -/
def cut? (t mark : Text) : Option (Text × Text) :=
  cutBy? (strip? · mark) t

/-- The text before and after the first occurrence of `mark` up to ASCII case. -/
def cutFolded? (t mark : Text) : Option (Text × Text) :=
  cutBy? (stripFolded? · mark) t

/-- Whether `mark` occurs in the text. -/
def includes (t mark : Text) : Bool :=
  (t.cut? mark).isSome

/-- The byte offset of the first occurrence of `mark` up to ASCII case. The empty mark occurs
nowhere. -/
def findFolded? (t mark : Text) : Option Nat :=
  if mark.isEmpty then none else (t.cutFolded? mark).map fun (before, _) => byteSize before

/-- The pieces of the text between the characters equal to `mark`; always one more than there are
marks. -/
def fields (mark : Char) : Text → List Text
  | [] => [[]]
  | c :: t =>
    if c == mark then [] :: fields mark t
    else
      match fields mark t with
      | piece :: pieces => (c :: piece) :: pieces
      | [] => [[c]]

/-- The text with every occurrence of `old`, taken from the left without overlap, replaced. -/
def replaceAll (t old new : Text) : Text :=
  match t with
  | [] => []
  | c :: t =>
    match strip? (c :: t) old with
    | some rest =>
      if rest.length < t.length + 1 then new ++ replaceAll rest old new
      else c :: replaceAll t old new
    | none => c :: replaceAll t old new
termination_by t.length

/-! ## Quotes -/

/-- Whether `c` opens a quoted literal. -/
def isQuoteMark (c : Char) : Bool :=
  c == '\'' || c == '"'

/-- The text without one pair of equal quote marks around it. -/
def unquote : Text → Text
  | [] => []
  | c :: t =>
    if isQuoteMark c && t.getLast? == some c then t.dropLast else c :: t

/-! ## Order -/

/-- Whether `a` comes before `b` when texts are compared character by character. -/
def precedes : Text → Text → Bool
  | [], [] => false
  | [], _ :: _ => true
  | _ :: _, [] => false
  | a :: s, b :: t => a.toNat < b.toNat || (a == b && precedes s t)

/-- Puts a text into a sorted list that holds no text twice. -/
def insertSorted (t : Text) : List Text → List Text
  | [] => [t]
  | s :: texts =>
    if t.precedes s then t :: s :: texts
    else if t == s then s :: texts
    else s :: insertSorted t texts

/-- The texts in order, each once. -/
def sortedSet (texts : List Text) : List Text :=
  texts.foldl (fun sorted t => insertSorted t sorted) []

/-! ## Laws of offsets and cuts -/

@[simp] theorem byteSize_append (a b : Text) : byteSize (a ++ b) = byteSize a + byteSize b := by
  induction a with
  | nil => simp [byteSize]
  | cons c a ih => simp [byteSize, ih, Nat.add_assoc]

/-- The size of the front is the place where the back starts. -/
theorem dropBytes?_append (a b : Text) : dropBytes? (a ++ b) (byteSize a) = some b := by
  induction a with
  | nil => simp [byteSize, dropBytes?]
  | cons c a ih =>
    have := c.utf8Size_pos
    obtain ⟨n, hn⟩ : ∃ n, c.utf8Size + byteSize a = n + 1 := ⟨_, (Nat.succ_pred (by omega)).symm⟩
    simp only [List.cons_append, byteSize, hn, dropBytes?]
    rw [if_pos (by omega), ← hn, Nat.add_sub_cancel_left, ih]

/-- The size of the front is the place where the front stops. -/
theorem takeBytes?_append (a b : Text) : takeBytes? (a ++ b) (byteSize a) = some a := by
  induction a with
  | nil => simp [byteSize, takeBytes?]
  | cons c a ih =>
    have := c.utf8Size_pos
    obtain ⟨n, hn⟩ : ∃ n, c.utf8Size + byteSize a = n + 1 := ⟨_, (Nat.succ_pred (by omega)).symm⟩
    simp only [List.cons_append, byteSize, hn, takeBytes?]
    rw [if_pos (by omega), ← hn, Nat.add_sub_cancel_left, ih]
    rfl

/-- A part of a text is cut out by the sizes of what stands before its ends. -/
theorem slice?_append (a b c : Text) :
    slice? (a ++ (b ++ c)) (byteSize a) (byteSize a + byteSize b) = some b := by
  simp [slice?, dropBytes?_append, takeBytes?_append]

/-- A text that starts with `lead` is `lead` and what follows it. -/
theorem append_of_strip? {lead t rest : Text} (h : strip? t lead = some rest) :
    lead ++ rest = t := by
  induction lead generalizing t with
  | nil => simpa [strip?, stripBy?] using h.symm
  | cons p lead ih =>
    cases t with
    | nil => simp [strip?, stripBy?] at h
    | cons c t =>
      simp only [strip?, stripBy?] at h
      split at h
      · rename_i same
        rw [List.cons_append, ih h, eq_of_beq same]
      · simp at h

/-- A cut at a mark loses only the mark. -/
theorem append_of_cut? {mark t before rest : Text}
    (h : cut? t mark = some (before, rest)) : before ++ (mark ++ rest) = t := by
  induction t generalizing before with
  | nil =>
    simp only [cut?, cutBy?, Option.map_eq_some_iff, Prod.mk.injEq] at h
    obtain ⟨rest', hstrip, rfl, rfl⟩ := h
    simpa using append_of_strip? hstrip
  | cons c t ih =>
    simp only [cut?, cutBy?] at h
    split at h
    · rename_i rest' hstrip
      simp only [Option.some.injEq, Prod.mk.injEq] at h
      obtain ⟨rfl, rfl⟩ := h
      simpa using append_of_strip? hstrip
    · simp only [Option.map_eq_some_iff, Prod.mk.injEq, Prod.exists] at h
      obtain ⟨before', rest', hcut, rfl, rfl⟩ := h
      simpa using ih hcut

/-- What follows a lead is no longer than the text. -/
theorem length_le_of_strip? {lead t rest : Text} (h : strip? t lead = some rest) :
    rest.length ≤ t.length := by
  rw [← append_of_strip? h, List.length_append]
  omega

/-- What follows a mark is no longer than the text. -/
theorem length_le_of_cut? {mark t before rest : Text} (h : cut? t mark = some (before, rest)) :
    rest.length + mark.length ≤ t.length := by
  rw [← append_of_cut? h, List.length_append, List.length_append]
  omega

end Text

end SqlScript
