import SqlScript.Proofs.Folding
import SqlScript.Text.Lowercase

/-!
# Words in lower case

The lower case of a letter is a letter, and no ASCII capital (`lowercaseChar_cases`). That is read
off the tables : the code points that a run of case mappings moves, and their images, lie in ranges
of letters (`CaseRun.keeps`). The dotted capital I is the only character with two characters as its
lower case. So in a text without it every character is put into lower case by itself
(`Text.lowered_lowercase`); a word stays a word and any other character stays as it is.
-/

namespace SqlScript

open List

variable {c : Char} {n : Nat} {table : RangeTable}

/-! ## Ranges -/

/-- Whether the code points from `lo` to `hi` lie in one of the ranges. -/
def RangeTable.containsRange : RangeTable → Nat → Nat → Bool
  | [], _, _ => false
  | range :: ranges, lo, hi => range.1.ble lo && (hi.ble range.2 || containsRange ranges lo hi)

theorem RangeTable.containsCode_of_containsRange {lo hi : Nat}
    (h : table.containsRange lo hi) (hlo : lo ≤ n) (hhi : n ≤ hi) : table.containsCode n := by
  induction table with
  | nil => exact absurd h (by simp [containsRange])
  | cons range table ih =>
    simp only [containsRange, Bool.and_eq_true, Bool.or_eq_true, Nat.ble_eq] at h
    rw [containsCode, if_neg (by omega)]
    split
    · rfl
    · exact ih (h.2.resolve_left (by omega))

theorem RangeTable.exists_of_containsCode
    (h : table.containsCode n) : ∃ range ∈ table, range.1 ≤ n ∧ n ≤ range.2 := by
  induction table with
  | nil => exact absurd h (by simp [containsCode])
  | cons range table ih =>
    obtain ⟨first, last⟩ := range
    rw [containsCode] at h
    split at h
    · exact absurd h (by simp)
    · split at h
      · exact ⟨(first, last), mem_cons_self, by omega, by omega⟩
      · obtain ⟨range, hmem, hrange⟩ := ih h
        exact ⟨range, mem_cons_of_mem _ hmem, hrange⟩

/-! ## Runs of case mappings -/

namespace CaseRun

theorem mem_codes_of_covers {run : CaseRun} (h : run.covers n) : n ∈ run.codes := by
  simp only [covers, Bool.and_eq_true, decide_eq_true_eq, beq_iff_eq] at h
  obtain ⟨⟨hfirst, hlast⟩, hstep⟩ := h
  refine mem_map.2 ⟨(n - run.first) / run.step, mem_range.2 ?_, ?_⟩
  · exact Nat.lt_succ_of_le (Nat.div_le_div_right (by omega))
  · rw [Nat.mul_div_cancel' (Nat.dvd_of_mod_eq_zero hstep)]
    omega

/-- Whether the table holds the code points that the run maps, and their images. Most runs lie in
one range; the code points of the others are looked up one by one. -/
def keeps (table : RangeTable) (run : CaseRun) : Bool :=
  (table.containsRange run.first run.last &&
    table.containsRange (run.image run.first) (run.image run.last)) ||
  run.codes.all fun n => table.containsRange n n && table.containsRange (run.image n) (run.image n)

theorem image_le_image (run : CaseRun) {m : Nat} (h : m ≤ n) : run.image m ≤ run.image n := by
  rw [image, image]
  omega

theorem containsCode_of_keeps {run : CaseRun} (h : keeps table run)
    (hn : run.covers n) : table.containsCode n ∧ table.containsCode (run.image n) := by
  rw [keeps, Bool.or_eq_true, Bool.and_eq_true] at h
  rcases h with ⟨hrange, himage⟩ | hcodes
  · simp only [covers, Bool.and_eq_true, decide_eq_true_eq] at hn
    exact ⟨RangeTable.containsCode_of_containsRange hrange hn.1.1 hn.1.2,
      RangeTable.containsCode_of_containsRange himage (run.image_le_image hn.1.1)
        (run.image_le_image hn.1.2)⟩
  · obtain ⟨hcode, himage⟩ :=
      Bool.and_eq_true_iff.1 (all_eq_true.1 hcodes n (mem_codes_of_covers hn))
    exact ⟨RangeTable.containsCode_of_containsRange hcode (Nat.le_refl _) (Nat.le_refl _),
      RangeTable.containsCode_of_containsRange himage (Nat.le_refl _) (Nat.le_refl _)⟩

/-- A code point is moved by a run that covers it, or stays since none does. -/
theorem mapCode_cases (runs : List CaseRun) (n : Nat) :
    (∃ run ∈ runs, run.covers n ∧ mapCode runs n = run.image n) ∨
      (∀ run ∈ runs, run.covers n = false) ∧ mapCode runs n = n := by
  induction runs with
  | nil => exact .inr ⟨nofun, rfl⟩
  | cons run runs ih =>
    cases hcovers : run.covers n with
    | true => exact .inl ⟨run, mem_cons_self, hcovers, by rw [mapCode, hcovers, if_pos rfl]⟩
    | false =>
      rw [mapCode, hcovers, if_neg Bool.false_ne_true]
      rcases ih with ⟨other, hmem, hother⟩ | ⟨hnone, hmap⟩
      · exact .inl ⟨other, mem_cons_of_mem _ hmem, hother⟩
      · exact .inr ⟨forall_mem_cons.2 ⟨hcovers, hnone⟩, hmap⟩

end CaseRun

/-! ## Letters -/

theorem keeps_lowercaseRuns : lowercaseRuns.all (CaseRun.keeps letterRanges) := by
  decide +kernel

theorem small_lowercaseRuns : lowercaseRuns.all (fun run => 0x61 ≤ run.image run.first) := by
  decide +kernel

theorem valid_letterRanges : letterRanges.all
    (fun range => range.2 < 0xD800 || (0xDFFF < range.1 && range.2 < 0x110000)) := by
  decide +kernel

/-- A letter is a code point of a character. -/
theorem toNat_ofNat_of_letter (h : letterRanges.containsCode n) : (Char.ofNat n).toNat = n := by
  obtain ⟨range, hmem, hlo, hhi⟩ := RangeTable.exists_of_containsCode h
  have hvalid := all_eq_true.1 valid_letterRanges range hmem
  simp only [Bool.or_eq_true, Bool.and_eq_true, decide_eq_true_eq] at hvalid
  have hchar : n.isValidChar := by
    simp only [Nat.isValidChar]
    omega
  rw [Char.ofNat, dif_pos hchar]
  rfl

/-- What a character may become in lower case : a letter becomes a letter and any other character
stays, and an ASCII capital becomes small. -/
structure Lowered (c d : Char) : Prop where
  same : isLetter c = false → d = c
  letter : isLetter c = true → isLetter d = true
  small : d.toLower = d

theorem Lowered.isWordChar_eq {d : Char} (h : Lowered c d) : isWordChar d = isWordChar c := by
  cases hletter : isLetter c with
  | true => simp [isWordChar, isAlphanumeric, hletter, h.letter hletter]
  | false => rw [h.same hletter]

/-- The lower case of a single character. -/
theorem lowered_lowercaseChar (h : c ≠ 'İ') : ∃ d, lowercaseChar c = [d] ∧ Lowered c d := by
  refine ⟨_, by rw [lowercaseChar, if_neg (by simpa using h)], ?_⟩
  rcases CaseRun.mapCode_cases lowercaseRuns c.toNat with ⟨run, hmem, hcovers, hmap⟩ | ⟨hnone, hmap⟩
  · obtain ⟨hcode, himage⟩ := CaseRun.containsCode_of_keeps
      (all_eq_true.1 keeps_lowercaseRuns run hmem) hcovers
    have hletter : isLetter c := hcode
    have hnat := toNat_ofNat_of_letter himage
    rw [hmap]
    refine ⟨fun hother => absurd (hletter.symm.trans hother) (by decide), fun _ => ?_, ?_⟩
    · rw [isLetter, RangeTable.contains, hnat]
      exact himage
    · have hfirst := of_decide_eq_true (all_eq_true.1 small_lowercaseRuns run hmem)
      simp only [CaseRun.covers, Bool.and_eq_true, decide_eq_true_eq] at hcovers
      have hle := run.image_le_image hcovers.1.1
      exact (toLower_cases _).resolve_right fun hcapital => by omega
  · rw [hmap, Char.ofNat_toNat]
    refine ⟨fun _ => rfl, id, (toLower_cases c).resolve_right fun hcapital => ?_⟩
    -- the first run covers the ASCII capitals
    have hfirst := hnone ⟨0x41, 0x5A, 1, 32⟩ mem_cons_self
    simp [CaseRun.covers, hcapital.1.1, hcapital.1.2, Nat.mod_one] at hfirst

theorem lowered_smallSigma (before after : Text) : Lowered 'Σ' (smallSigma before after) := by
  have hsigma : isLetter 'Σ' := by decide
  rw [smallSigma]
  split
  · exact ⟨fun h => absurd (hsigma.symm.trans h) (by decide), fun _ => by decide, by decide⟩
  · exact ⟨fun h => absurd (hsigma.symm.trans h) (by decide), fun _ => by decide, by decide⟩

/-- A text without dotted capitals is put into lower case character by character. -/
theorem Text.lowered_lowercase {t : Text} (h : 'İ' ∉ t) : Forall₂ Lowered t t.lowercase := by
  have hfrom : ∀ before, Forall₂ Lowered t (lowercaseFrom before t) := by
    induction t with
    | nil => exact fun _ => .nil
    | cons c t ih =>
      rw [mem_cons, not_or] at h
      intro before
      rw [lowercaseFrom]
      split
      · rename_i hsigma
        obtain rfl := eq_of_beq hsigma
        exact .cons (lowered_smallSigma before t) (ih h.2 _)
      · obtain ⟨d, hd, hlowered⟩ := lowered_lowercaseChar (Ne.symm h.1)
        rw [hd]
        exact .cons hlowered (ih h.2 _)
  exact hfrom []

/-! ## Words -/

section Words

variable {t : Text} (h : 'İ' ∉ t)

include h

theorem Text.lowercase_ne_nil (hne : t ≠ []) : t.lowercase ≠ [] := by
  rw [← length_pos_iff, ← (lowered_lowercase h).length_eq]
  exact length_pos_iff.2 hne

theorem Text.exists_of_mem_lowercase {d : Char} (hd : d ∈ t.lowercase) : ∃ c ∈ t, Lowered c d := by
  have hlowered := lowered_lowercase h
  generalize t.lowercase = t' at hlowered hd
  clear h
  induction hlowered with
  | nil => exact absurd hd not_mem_nil
  | cons hc _ ih =>
    rcases mem_cons.1 hd with rfl | hd
    · exact ⟨_, mem_cons_self, hc⟩
    · obtain ⟨c, hmem, hlowered⟩ := ih hd
      exact ⟨c, mem_cons_of_mem _ hmem, hlowered⟩

theorem Text.all_isWordChar_lowercase (hword : t.all isWordChar) : t.lowercase.all isWordChar := by
  refine all_eq_true.2 fun d hd => ?_
  obtain ⟨c, hc, hlowered⟩ := exists_of_mem_lowercase h hd
  exact hlowered.isWordChar_eq.trans (all_eq_true.1 hword c hc)

theorem Text.toLowerAscii_lowercase : t.lowercase.toLowerAscii = t.lowercase := by
  refine (map_congr_left fun d hd => ?_).trans (map_id _)
  obtain ⟨c, -, hlowered⟩ := exists_of_mem_lowercase h hd
  exact hlowered.small

/-- A character that is no letter comes from itself only. -/
theorem Text.eq_singleton_of_lowercase (hc : isLetter c = false)
    (hlower : t.lowercase = [c]) : t = [c] := by
  have hlowered := lowered_lowercase h
  rw [hlower, forall₂_cons_right_iff] at hlowered
  obtain ⟨x, rest, hx, hrest, rfl⟩ := hlowered
  obtain rfl := forall₂_nil_right_iff.1 hrest
  cases hletter : isLetter x with
  | true => exact absurd ((hx.letter hletter).symm.trans hc) (by decide)
  | false => rw [hx.same hletter]

end Words

/-- What is no part of a word stays. -/
theorem Text.lowercase_singleton (h : isWordChar c = false) : Text.lowercase [c] = [c] := by
  have hdotted : 'İ' ∉ [c] := by
    rw [mem_singleton]
    rintro rfl
    exact absurd h (by decide)
  have hlowered := lowered_lowercase hdotted
  rw [forall₂_cons_left_iff] at hlowered
  obtain ⟨d, rest, hd, hrest, hlower⟩ := hlowered
  obtain rfl := forall₂_nil_left_iff.1 hrest
  have hletter : isLetter c = false := by
    simp only [isWordChar, isAlphanumeric, Bool.or_eq_false_iff] at h
    exact h.1.1.1
  rw [hlower, hd.same hletter]

end SqlScript
