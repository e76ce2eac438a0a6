import SqlScript.Text.Basic

/-!
# Trimming and cutting texts that are put together

A text is solid if it neither starts nor ends with a blank (`Text.Solid`); trimming undoes putting
blanks around it (`Text.trim_append`). A text is cut at the first place where its mark can stand, so
a part that lacks the mark's first character is passed over (`Text.cut?_append`,
`Text.cutFolded?_append`), and the fields of a text are the parts it was joined from
(`Text.fields_append_cons`).
-/

namespace SqlScript

open List

/-- A character that is no small letter is the small form of nothing but itself. -/
theorem eq_of_toLower_eq {c d : Char} (hd : d.isLower = false) (h : c.toLower = d) : c = d := by
  delta Char.toLower at h
  split at h
  · rename_i hc
    subst h
    delta Char.isLower at hd
    simp only [ge_iff_le, Bool.and_eq_false_iff, decide_eq_false_iff_not] at hd
    simp only [UInt32.le_iff_toNat_le, ge_iff_le, UInt32.toNat_add] at hd hc
    simp at hd hc
    omega
  · exact h

theorem isBlank_eq_false {c : Char} (h : 32 < c.toNat) (h' : c.toNat < 133) :
    isBlank c = false := by
  simp only [isBlank, blankRanges, RangeTable.contains, RangeTable.containsCode]
  rw [if_neg (by omega), if_neg (by omega), if_neg (by omega), if_neg (by omega), if_pos (by omega)]

/-- No blank is a capital letter. -/
theorem toLower_eq_self_of_isBlank {c : Char} (h : isBlank c) : c.toLower = c := by
  delta Char.toLower
  split
  · rename_i hc
    have hval : c.val.toNat = c.toNat := rfl
    simp only [UInt32.le_iff_toNat_le, ge_iff_le] at hc
    simp at hc
    rw [isBlank_eq_false (by omega) (by omega)] at h
    simp at h
  · rfl

namespace Text

variable {t a : Text}

theorem mem_toLowerAscii {c : Char} (h : c ∈ t) (hc : c.toLower = c) : c ∈ t.toLowerAscii :=
  List.mem_map.2 ⟨c, h, hc⟩

/-! ## Blanks -/

/-- All the characters are blanks. -/
def Blank (t : Text) : Prop :=
  ∀ c ∈ t, isBlank c = true

theorem blank_nil : Blank [] := by
  simp [Blank]

theorem Blank.append {b : Text} (ha : Blank a) (hb : Blank b) : Blank (a ++ b) := by
  intro c hc
  rcases mem_append.1 hc with hc | hc
  · exact ha c hc
  · exact hb c hc

theorem Blank.reverse (h : Blank t) : Blank t.reverse :=
  fun c hc => h c (mem_reverse.1 hc)

theorem blank_takeWhile (t : Text) : Blank (t.takeWhile isBlank) :=
  List.all_eq_true.1 all_takeWhile

/-- The text has characters, and neither the first nor the last is a blank. -/
structure Solid (t : Text) : Prop where
  first : ∃ c rest, t = c :: rest ∧ isBlank c = false
  last : ∃ rest c, t = rest ++ [c] ∧ isBlank c = false

theorem Solid.ne_nil (h : Solid t) : t ≠ [] := by
  obtain ⟨c, rest, rfl, -⟩ := h.first
  simp

theorem solid_singleton {c : Char} (h : isBlank c = false) : Solid [c] :=
  ⟨⟨c, [], rfl, h⟩, ⟨[], c, rfl, h⟩⟩

/-- What stands between two solid texts does not matter. -/
theorem Solid.append_append {b : Text} (ha : Solid a) (hb : Solid b) (m : Text) :
    Solid (a ++ (m ++ b)) := by
  obtain ⟨c, rest, rfl, hc⟩ := ha.first
  obtain ⟨rest', c', rfl, hc'⟩ := hb.last
  exact ⟨⟨c, rest ++ (m ++ (rest' ++ [c'])), by simp, hc⟩,
    ⟨c :: (rest ++ (m ++ rest')), c', by simp, hc'⟩⟩

theorem solid_of_forall (hne : t ≠ []) (h : ∀ c ∈ t, isBlank c = false) : Solid t := by
  constructor
  · obtain ⟨c, rest, rfl⟩ := exists_cons_of_ne_nil hne
    exact ⟨c, rest, rfl, h c (by simp)⟩
  · exact ⟨t.dropLast, t.getLast hne, (dropLast_concat_getLast hne).symm, h _ (getLast_mem hne)⟩

theorem trimStart_append {p : Text} (hp : Blank p) (ht : Solid t) (q : Text) :
    trimStart (p ++ (t ++ q)) = t ++ q := by
  obtain ⟨c, rest, rfl, hc⟩ := ht.first
  rw [trimStart, dropWhile_append_of_pos hp, cons_append, dropWhile_cons_of_neg (by simp [hc])]

theorem trimEnd_append {q : Text} (ht : Solid t) (hq : Blank q) : trimEnd (t ++ q) = t := by
  obtain ⟨rest, c, rfl, hc⟩ := ht.last
  rw [trimEnd, reverse_append, dropWhile_append_of_pos hq.reverse, reverse_append,
    reverse_singleton, singleton_append, dropWhile_cons_of_neg (by simp [hc])]
  simp

/-- Trimming at the end takes away blanks. -/
theorem exists_append_trimEnd (t : Text) : ∃ gap, Blank gap ∧ t = trimEnd t ++ gap := by
  refine ⟨(t.reverse.takeWhile isBlank).reverse, (blank_takeWhile t.reverse).reverse, ?_⟩
  rw [trimEnd, ← reverse_append, takeWhile_append_dropWhile, reverse_reverse]

/-- Trimming a text loses blanks at its ends. -/
theorem exists_append_trim (t : Text) : ∃ p q, Blank p ∧ Blank q ∧ t = p ++ (trim t ++ q) := by
  obtain ⟨q, hq, htrim⟩ := exists_append_trimEnd (trimStart t)
  refine ⟨t.takeWhile isBlank, q, blank_takeWhile t, hq, ?_⟩
  rw [trim, ← htrim, trimStart, takeWhile_append_dropWhile]

theorem trimEnd_eq_nil_or (t : Text) :
    trimEnd t = [] ∨ ∃ rest c, trimEnd t = rest ++ [c] ∧ isBlank c = false := by
  cases hdrop : t.reverse.dropWhile isBlank with
  | nil => exact .inl (by rw [trimEnd, hdrop, reverse_nil])
  | cons c rest =>
    have hc := head?_dropWhile_not isBlank t.reverse
    rw [hdrop] at hc
    exact .inr ⟨rest.reverse, c, by rw [trimEnd, hdrop, reverse_cons], by simpa using hc⟩

/-- Trimming at the end does not go past a character that is no blank. -/
theorem trimEnd_append_cons (u : Text) {c : Char} (hc : isBlank c = false) (t : Text) :
    trimEnd (u ++ c :: t) = u ++ c :: trimEnd t := by
  have hreverse : (u ++ c :: t).reverse = t.reverse ++ c :: u.reverse := by simp
  rw [trimEnd, trimEnd, hreverse, dropWhile_append, dropWhile_cons_of_neg (by simp [hc])]
  split
  · rename_i hnil
    rw [List.isEmpty_iff.1 hnil]
    simp
  · simp

theorem trimEnd_of_blank (h : Blank t) : trimEnd t = [] := by
  have hdrop : (t.reverse ++ []).dropWhile isBlank = [] := dropWhile_append_of_pos h.reverse
  rw [append_nil] at hdrop
  rw [trimEnd, hdrop, reverse_nil]

/-- Trimming takes away the blanks around a solid text. -/
theorem trim_append {p q : Text} (hp : Blank p) (ht : Solid t) (hq : Blank q) :
    trim (p ++ (t ++ q)) = t := by
  rw [trim, trimStart_append hp ht, trimEnd_append ht hq]

theorem Solid.trim (ht : Solid t) : Text.trim t = t := by
  simpa using trim_append blank_nil ht blank_nil

/-! ## Cuts -/

/-- A part without the first character of the mark is passed over. -/
theorem cutBy?_stripBy?_append (same : Char → Char → Bool) (m : Char) (ms : Text) {x rest : Text}
    (ha : ∀ c ∈ a, same m c = false) (hx : stripBy? same (m :: ms) x = some rest) :
    cutBy? (stripBy? same (m :: ms)) (a ++ x) = some (a, rest) := by
  induction a with
  | nil =>
    cases x with
    | nil => simp [stripBy?] at hx
    | cons c x => simp [cutBy?, hx]
  | cons c a ih =>
    have hc := ha c (by simp)
    have hstrip : stripBy? same (m :: ms) (c :: (a ++ x)) = none := by simp [stripBy?, hc]
    simp [cutBy?, hstrip, ih fun d hd => ha d (by simp [hd])]

/-- A part without the first character of the mark, in any case, is passed over. -/
theorem cutFolded?_append (m : Char) (ms : Text) (hm : m.toLower.isLower = false) {x rest : Text}
    (ha : m.toLower ∉ a) (hx : stripFolded? x (m :: ms) = some rest) :
    cutFolded? (a ++ x) (m :: ms) = some (a, rest) := by
  refine cutBy?_stripBy?_append _ m ms (fun c hc => ?_) hx
  rw [beq_eq_false_iff_ne]
  intro hsame
  exact ha (eq_of_toLower_eq hm hsame.symm ▸ hc)

theorem strip?_append (lead rest : Text) : strip? (lead ++ rest) lead = some rest := by
  induction lead with
  | nil => cases rest <;> rfl
  | cons p lead ih => simpa [strip?, stripBy?] using ih

theorem cut?_append (m : Char) (ms : Text) (ha : m ∉ a) (rest : Text) :
    cut? (a ++ (m :: ms ++ rest)) (m :: ms) = some (a, rest) := by
  refine cutBy?_stripBy?_append (· == ·) m ms (fun c hc => ?_) (strip?_append (m :: ms) rest)
  rw [beq_eq_false_iff_ne]
  rintro rfl
  exact ha hc

/-- A text with fewer characters `c` than the mark does not hold the mark. -/
theorem cut?_eq_none {mark : Text} (c : Char) (h : t.count c < mark.count c) :
    cut? t mark = none := by
  cases hcut : cut? t mark with
  | none => rfl
  | some parts =>
    obtain ⟨before, rest⟩ := parts
    rw [← append_of_cut? hcut] at h
    simp only [count_append] at h
    omega

/-! ## Quotes -/

theorem unquote_append {q : Char} (hq : isQuoteMark q) (t : Text) :
    unquote (q :: (t ++ [q])) = t := by
  simp [unquote, hq]

theorem unquote_of_forall (h : ∀ c ∈ t, isQuoteMark c = false) : unquote t = t := by
  cases t with
  | nil => rfl
  | cons c t => simp [unquote, h c (by simp)]

/-! ## Fields -/

theorem fields_of_notMem {mark : Char} (h : mark ∉ t) : fields mark t = [t] := by
  induction t with
  | nil => rfl
  | cons c t ih =>
    have hc : (c == mark) = false := by
      rw [beq_eq_false_iff_ne]
      rintro rfl
      simp at h
    simp [fields, hc, ih fun hmem => h (by simp [hmem])]

theorem fields_append_cons {mark : Char} (h : mark ∉ a) (b : Text) :
    fields mark (a ++ mark :: b) = a :: fields mark b := by
  induction a with
  | nil => simp [fields]
  | cons c a ih =>
    have hc : (c == mark) = false := by
      rw [beq_eq_false_iff_ne]
      rintro rfl
      simp at h
    simp [fields, hc, ih fun hmem => h (by simp [hmem])]

end Text

end SqlScript
