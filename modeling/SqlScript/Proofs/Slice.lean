import SqlScript.Steps

/-!
# Places of a text and the slices between them

A place of a text is the size of a front part of it (`Text.IsPlace`). A cut succeeds exactly at
places : `takeBytes?_eq_some_iff`, `dropBytes?_eq_some_iff` and `slice?_eq_some_iff` read a cut as
a decomposition of the text, and two decompositions of one text are comparable by the sizes of
their fronts (`exists_append_of_byteSize_le`).

A slice that lies in one part of a text does not see the other part (`slice?_append_left`,
`slice?_append_right`). This is what keeps the text of a span through a splice. Two slices that meet
make one (`slice?_append_slice?`), and a slice within another is a part of it
(`exists_append_of_slice?_within`).
-/

namespace SqlScript

open List Option

@[simp] theorem ok_bind {ε α β : Type} (a : α) (f : α → Except ε β) :
    (Except.ok a >>= f) = f a :=
  rfl

theorem exists_of_bind_eq_ok {ε α β : Type} {x : Except ε α} {f : α → Except ε β} {b : β}
    (h : (x >>= f) = .ok b) : ∃ a, x = .ok a ∧ f a = .ok b := by
  cases x with
  | error e => cases h
  | ok a => exact ⟨a, rfl, h⟩

theorem eq_ok_of_toOption {ε α : Type} {x : Except ε α} {a : α} (h : x.toOption = some a) :
    x = .ok a := by
  cases x with
  | error e => cases h
  | ok b => rw [Option.some.inj h]

namespace Text

@[simp] theorem byteSize_nil : byteSize [] = 0 :=
  rfl

@[simp] theorem byteSize_cons (c : Char) (t : Text) : byteSize (c :: t) = c.utf8Size + byteSize t :=
  rfl

variable {t a b m : Text} {n start stop : Nat}

theorem byteSize_eq_zero_iff : byteSize t = 0 ↔ t = [] := by
  cases t with
  | nil => simp
  | cons c t =>
    have := c.utf8Size_pos
    simp only [byteSize_cons, reduceCtorEq, iff_false]
    omega

/-! ## Places -/

/-- Of two fronts of one text, the smaller is a front of the larger. -/
theorem exists_append_of_byteSize_le {a' b' : Text} (h : a ++ b = a' ++ b')
    (hle : byteSize a ≤ byteSize a') : ∃ m, a' = a ++ m ∧ b = m ++ b' := by
  rcases append_eq_append_iff.1 h with ⟨m, ha, hb⟩ | ⟨m, ha, hb⟩
  · exact ⟨m, ha, hb⟩
  · rw [ha, byteSize_append] at hle
    obtain rfl : m = [] := byteSize_eq_zero_iff.1 (by omega)
    exact ⟨[], by simpa using ha.symm, by simpa using hb.symm⟩

/-- Fronts of one text that are as long are the same. -/
theorem append_inj_of_byteSize_eq {a' b' : Text} (h : a ++ b = a' ++ b')
    (hsize : byteSize a = byteSize a') : a = a' ∧ b = b' := by
  obtain ⟨m, rfl, rfl⟩ := exists_append_of_byteSize_le h (Nat.le_of_eq hsize)
  rw [byteSize_append] at hsize
  obtain rfl : m = [] := byteSize_eq_zero_iff.1 (by omega)
  simp

theorem dropBytes?_eq_some_iff : dropBytes? t n = some b ↔ ∃ a, t = a ++ b ∧ byteSize a = n := by
  constructor
  · intro h
    induction t generalizing n with
    | nil =>
      cases n with
      | zero => exact ⟨[], by simpa [dropBytes?] using h, rfl⟩
      | succ n => simp [dropBytes?] at h
    | cons c t ih =>
      cases n with
      | zero => exact ⟨[], by simpa [dropBytes?] using h, rfl⟩
      | succ n =>
        simp only [dropBytes?] at h
        split at h
        · rename_i hc
          obtain ⟨a, rfl, ha⟩ := ih h
          exact ⟨c :: a, rfl, by rw [byteSize_cons, ha]; omega⟩
        · simp at h
  · rintro ⟨a, rfl, rfl⟩
    exact dropBytes?_append a b

theorem takeBytes?_eq_some_iff : takeBytes? t n = some a ↔ ∃ b, t = a ++ b ∧ byteSize a = n := by
  constructor
  · intro h
    induction t generalizing n a with
    | nil =>
      cases n with
      | zero => exact ⟨[], by simpa [takeBytes?] using h.symm, by simp_all [takeBytes?]⟩
      | succ n => simp [takeBytes?] at h
    | cons c t ih =>
      cases n with
      | zero =>
        obtain rfl : [] = a := by simpa [takeBytes?] using h
        exact ⟨c :: t, rfl, rfl⟩
      | succ n =>
        simp only [takeBytes?] at h
        split at h
        · rename_i hc
          obtain ⟨a', ha', rfl⟩ := map_eq_some_iff.1 h
          obtain ⟨b, rfl, hb⟩ := ih ha'
          exact ⟨b, rfl, by rw [byteSize_cons, hb]; omega⟩
        · simp at h
  · rintro ⟨b, rfl, rfl⟩
    exact takeBytes?_append a b

theorem slice?_eq_some_iff :
    slice? t start stop = some m ↔
      ∃ a b, t = a ++ (m ++ b) ∧ byteSize a = start ∧ byteSize a + byteSize m = stop := by
  constructor
  · intro h
    unfold slice? at h
    split at h
    · rename_i hle
      obtain ⟨rest, hrest, hm⟩ := bind_eq_some_iff.1 h
      obtain ⟨a, rfl, ha⟩ := dropBytes?_eq_some_iff.1 hrest
      obtain ⟨b, rfl, hb⟩ := takeBytes?_eq_some_iff.1 hm
      exact ⟨a, b, rfl, ha, by omega⟩
    · simp at h
  · rintro ⟨a, b, rfl, rfl, rfl⟩
    exact slice?_append a m b

theorem add_byteSize_of_slice? (h : slice? t start stop = some m) : start + byteSize m = stop := by
  obtain ⟨a, b, -, rfl, hstop⟩ := slice?_eq_some_iff.1 h
  exact hstop

theorem le_byteSize_of_slice? (h : slice? t start stop = some m) : stop ≤ byteSize t := by
  obtain ⟨a, b, rfl, -, rfl⟩ := slice?_eq_some_iff.1 h
  simp only [byteSize_append]
  omega

/-- The offset `n` lies between two characters of `t`, or at an end. -/
def IsPlace (t : Text) (n : Nat) : Prop :=
  (takeBytes? t n).isSome = true

instance (t : Text) (n : Nat) : Decidable (IsPlace t n) :=
  inferInstanceAs (Decidable (_ = true))

theorem isPlace_iff : IsPlace t n ↔ ∃ a b, t = a ++ b ∧ byteSize a = n := by
  simp only [IsPlace, isSome_iff_exists, takeBytes?_eq_some_iff]

/-- A slice starts and stops at places. -/
theorem isPlace_of_slice? (h : slice? t start stop = some m) :
    IsPlace t start ∧ IsPlace t stop := by
  obtain ⟨a, b, rfl, rfl, rfl⟩ := slice?_eq_some_iff.1 h
  refine ⟨isPlace_iff.2 ⟨a, m ++ b, rfl, rfl⟩, isPlace_iff.2 ⟨a ++ m, b, ?_, ?_⟩⟩
  · rw [append_assoc]
  · rw [byteSize_append]

/-! ## Slices of one part -/

theorem dropBytes?_append_left (a b : Text) (h : n ≤ byteSize a) :
    dropBytes? (a ++ b) n = (dropBytes? a n).map (· ++ b) := by
  induction a generalizing n with
  | nil =>
    obtain rfl : n = 0 := by simpa using h
    simp [dropBytes?]
  | cons c a ih =>
    cases n with
    | zero => simp [dropBytes?]
    | succ n =>
      simp only [cons_append, dropBytes?]
      split
      · rw [byteSize_cons] at h
        exact ih (by omega)
      · rfl

theorem takeBytes?_append_left (a b : Text) (h : n ≤ byteSize a) :
    takeBytes? (a ++ b) n = takeBytes? a n := by
  induction a generalizing n with
  | nil =>
    obtain rfl : n = 0 := by simpa using h
    cases b <;> simp [takeBytes?]
  | cons c a ih =>
    cases n with
    | zero => simp [takeBytes?]
    | succ n =>
      simp only [cons_append, takeBytes?]
      split
      · rw [byteSize_cons] at h
        rw [ih (by omega)]
      · rfl

theorem dropBytes?_append_right (a b : Text) (n : Nat) :
    dropBytes? (a ++ b) (byteSize a + n) = dropBytes? b n := by
  induction a with
  | nil => simp
  | cons c a ih =>
    have hc := c.utf8Size_pos
    obtain ⟨k, hk⟩ : ∃ k, byteSize (c :: a) + n = k + 1 :=
      ⟨byteSize (c :: a) + n - 1, by rw [byteSize_cons]; omega⟩
    rw [cons_append, hk, dropBytes?, ← hk, byteSize_cons, if_pos (by omega), ← ih]
    congr 1
    omega

/-- A slice of the front part does not see what follows. -/
theorem slice?_append_left (a b : Text) (h : stop ≤ byteSize a) :
    slice? (a ++ b) start stop = slice? a start stop := by
  unfold slice?
  split
  · rename_i hle
    rw [dropBytes?_append_left a b (by omega)]
    cases hd : dropBytes? a start with
    | none => rfl
    | some rest =>
      obtain ⟨front, rfl, hfront⟩ := dropBytes?_eq_some_iff.1 hd
      rw [byteSize_append] at h
      exact takeBytes?_append_left rest b (by omega)
  · rfl

/-- A slice of the back part does not see what stands before. -/
theorem slice?_append_right (a b : Text) (start stop : Nat) (h : byteSize a ≤ start)
    (h' : start ≤ stop) :
    slice? (a ++ b) start stop = slice? b (start - byteSize a) (stop - byteSize a) := by
  obtain ⟨k, rfl⟩ := Nat.exists_eq_add_of_le h
  unfold slice?
  rw [if_pos h', if_pos (by omega), dropBytes?_append_right, Nat.add_sub_cancel_left,
    show stop - byteSize a - k = stop - (byteSize a + k) by omega]

/-! ## Slices next to and inside one another -/

/-- Two slices that meet make one. -/
theorem slice?_append_slice? {m' : Text} {middle : Nat} (h : slice? t start middle = some m)
    (h' : slice? t middle stop = some m') : slice? t start stop = some (m ++ m') := by
  obtain ⟨a, b, rfl, rfl, hm⟩ := slice?_eq_some_iff.1 h
  obtain ⟨a', b', htext, hmiddle, rfl⟩ := slice?_eq_some_iff.1 h'
  have hfront : byteSize (a ++ m) = byteSize a' := by rw [byteSize_append, hm, ← hmiddle]
  obtain ⟨gap, rfl, hrest⟩ := exists_append_of_byteSize_le
    (show (a ++ m) ++ b = a' ++ (m' ++ b') by rw [← htext, append_assoc]) (by omega)
  obtain rfl : gap = [] := by
    rw [byteSize_append (a ++ m) gap] at hfront
    exact byteSize_eq_zero_iff.1 (by omega)
  rw [nil_append] at hrest
  refine slice?_eq_some_iff.2 ⟨a, b', by rw [hrest, append_assoc], rfl, ?_⟩
  simp only [byteSize_append, append_nil]
  omega

/-- A slice that lies within another one is a part of its text. -/
theorem exists_append_of_slice?_within {m' : Text} {start' stop' : Nat}
    (h : slice? t start stop = some m) (h' : slice? t start' stop' = some m')
    (hstart : start ≤ start') (hstop : stop' ≤ stop) :
    ∃ p q, m = p ++ (m' ++ q) ∧ start + byteSize p = start' := by
  obtain ⟨a, b, rfl, rfl, rfl⟩ := slice?_eq_some_iff.1 h
  obtain ⟨a', b', htext, rfl, rfl⟩ := slice?_eq_some_iff.1 h'
  obtain ⟨p, rfl, hm⟩ := exists_append_of_byteSize_le htext hstart
  obtain ⟨q, rfl, -⟩ := exists_append_of_byteSize_le
    (show (p ++ m') ++ b' = m ++ b by rw [hm, append_assoc])
    (by simp only [byteSize_append] at hstop ⊢; omega)
  exact ⟨p, q, append_assoc p m' q, by rw [byteSize_append]⟩

/-! ## Slices of a text of which a part is replaced -/

/-- A slice behind the front part stays the same when the front part is replaced. -/
theorem slice?_shifted {q q' s : Text} {i j i' j' : Nat} (h : slice? (q ++ s) i j = some m)
    (hle : q.byteSize ≤ i) (hi : i + q'.byteSize = i' + q.byteSize)
    (hj : j + q'.byteSize = j' + q.byteSize) : slice? (q' ++ s) i' j' = some m := by
  have hsize := add_byteSize_of_slice? h
  rw [slice?_append_right _ _ _ _ hle (by omega)] at h
  rw [slice?_append_right _ _ _ _ (by omega) (by omega), ← h]
  congr 1 <;> omega

/-- A slice that reaches from the front part into the back part holds all of the middle, whatever
the middle is. -/
theorem slice?_around {p x s : Text} {i j : Nat} (h : slice? (p ++ (x ++ s)) i j = some m)
    (hi : i ≤ p.byteSize) (hj : (p ++ x).byteSize ≤ j) : ∃ lead trail : Text,
      lead <:+ p ∧ trail <+: s ∧ m = lead ++ (x ++ trail) ∧
      i + lead.byteSize = p.byteSize ∧ (p ++ x).byteSize + trail.byteSize = j ∧
      ∀ x' j', j + (p ++ x').byteSize = j' + (p ++ x).byteSize →
        slice? (p ++ (x' ++ s)) i j' = some (lead ++ (x' ++ trail)) := by
  obtain ⟨a, b, htext, rfl, rfl⟩ := slice?_eq_some_iff.1 h
  obtain ⟨lead, rfl, hrest⟩ := exists_append_of_byteSize_le htext.symm hi
  rw [← append_assoc] at hrest
  obtain ⟨trail, rfl, rfl⟩ := exists_append_of_byteSize_le hrest.symm
    (by simp only [byteSize_append] at hj ⊢; omega)
  refine ⟨lead, trail, suffix_append _ _, prefix_append _ _, by simp, by simp,
    by simp [Nat.add_assoc], ?_⟩
  intro x' j' hj'
  refine slice?_eq_some_iff.2 ⟨a, b, by simp, rfl, ?_⟩
  simp only [byteSize_append] at hj' ⊢
  omega

/-! ## Cuts that succeed -/

theorem sliceTo_append (h : byteSize a = n) : sliceTo (a ++ b) n = .ok a := by
  subst h
  simp [sliceTo, takeBytes?_append]

theorem sliceFrom_append (h : byteSize a = n) : sliceFrom (a ++ b) n = .ok b := by
  subst h
  simp [sliceFrom, dropBytes?_append]

theorem replaceSlice_append {c : Text} (hstart : byteSize a = start)
    (hstop : byteSize (a ++ b) = stop) (new : Text) :
    replaceSlice (a ++ (b ++ c)) start stop new = .ok (a ++ new ++ c) := by
  have hfrom : sliceFrom (a ++ (b ++ c)) stop = .ok c := by
    rw [← append_assoc]
    exact sliceFrom_append hstop
  rw [replaceSlice, sliceTo_append hstart, ok_bind, hfrom, ok_bind]
  rfl

theorem slice_append (hstart : byteSize a = start)
    (hstop : byteSize a + byteSize m = stop) : slice (a ++ (m ++ b)) start stop = .ok m := by
  subst hstart hstop
  simp [slice, slice?_append]

theorem slice_eq_ok_iff : slice t start stop = .ok m ↔ slice? t start stop = some m := by
  unfold slice
  cases slice? t start stop <;> simp

end Text

end SqlScript
