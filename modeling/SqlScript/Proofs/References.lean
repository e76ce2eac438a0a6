import SqlScript.Proofs.Search
import SqlScript.Proofs.Verbatim

/-!
# References to parameters

Putting values into a text is one pass from the left. `Parameters.SinglePass` is what such a pass
does, one character at a time : a character other than `@` stays, behind `@` the longest name is
looked for, and what is put in is not read again. It says nothing of the order of the names, nor of
bytes. Exactly one function does that (`Parameters.singlePass_iff`), and it is `substitute` for the
parameters in any order, and also the search through names sorted by their sizes in bytes that
jumps from one `@` to the next (`ByOffset.substituteFrom`).

A name to which no reference occurs in the text is never the longest one at any `@`, so it can be
left out (`Substituted.without`). Such a name may be declared with a default, which then
stands in for a value that is not given. Neither has an effect (`render_insert_of_unreferenced`).
-/

namespace SqlScript

open List Text

/-! ## What is put in for a reference -/

/-- Of two fronts of a text, the one with more characters has more bytes. -/
theorem Text.byteSize_le_iff_length_le {a b t : Text} (ha : a <+: t) (hb : b <+: t) :
    a.byteSize ≤ b.byteSize ↔ a.length ≤ b.length := by
  rcases prefix_or_prefix_of_prefix ha hb with ⟨m, rfl⟩ | ⟨m, rfl⟩
  · simp
  · cases m with
    | nil => simp
    | cons c m =>
      have hpos := c.utf8Size_pos
      simp only [byteSize_append, byteSize, length_append, length_cons]
      omega

theorem Parameters.mem_of_get? {values : Parameters} {name value : Text}
    (h : values.get? name = some value) : (name, value) ∈ values := by
  obtain ⟨front, back, rfl, -⟩ := lookup_eq_some_iff.1 h
  simp

namespace ByOffset

variable {values : Parameters} {t name value rest name' value' rest' : Text}

theorem Longest.not_noName (h : Longest values t name value rest) : ¬ NoName values t :=
  fun hno => (hno _ (Parameters.mem_of_get? h.value)).elim h.ne_nil fun hnot =>
    hnot ⟨rest, h.text.symm⟩

/-- There is one longest name. -/
theorem Longest.unique (h : Longest values t name value rest)
    (h' : Longest values t name' value' rest') : value = value' ∧ rest = rest' := by
  have hfront : name <+: t := ⟨rest, h.text.symm⟩
  have hfront' : name' <+: t := ⟨rest', h'.text.symm⟩
  have hlength : name.length = name'.length := Nat.le_antisymm
    ((byteSize_le_iff_length_le hfront hfront').1
      (h'.longest _ (Parameters.mem_of_get? h.value) hfront))
    ((byteSize_le_iff_length_le hfront' hfront).1
      (h.longest _ (Parameters.mem_of_get? h'.value) hfront'))
  obtain ⟨rfl, rfl⟩ := append_inj (h.text.symm.trans h'.text) hlength
  exact ⟨Option.some.inj (h.value.symm.trans h'.value), rfl⟩

end ByOffset

/-- What is put together piece by piece is the result of substitution. -/
theorem substituted_iff {values : Parameters} {t out : Text} :
    Substituted values t out ↔ values.substitute t = out := by
  refine ⟨fun h => ?_, fun h => h ▸ substituted_substitute values t⟩
  induction h with
  | nil => rw [Parameters.substitute]
  | char hc _ ih => rw [ByOffset.substitute_char hc, ih]
  | @value t _ _ _ _ hlong _ ih =>
    rcases ByOffset.longestMatch?_spec values t with ⟨-, hno⟩ | ⟨_, _, _, hsome, hlong'⟩
    · exact absurd hno hlong.not_noName
    · obtain ⟨rfl, rfl⟩ := hlong.unique hlong'
      rw [ByOffset.substitute_reference hsome, ih]
  | @unknown t _ hno _ ih =>
    rcases ByOffset.longestMatch?_spec values t with ⟨hnone, -⟩ | ⟨_, _, _, -, hlong⟩
    · rw [ByOffset.substitute_unknown hnone, ih]
    · exact absurd hno hlong.not_noName

namespace Parameters

/-! ## One pass over the text -/

/-- The name is the longest one, of those that are not empty, with which the text starts. -/
structure Refers (values : Parameters) (t name value rest : Text) : Prop where
  mem : (name, value) ∈ values
  ne_nil : name ≠ []
  text : t = name ++ rest
  longest : ∀ entry ∈ values, entry.1 <+: t → entry.1.length ≤ name.length

/-- The function goes once over a text from the left. It leaves characters as they are, and for an
`@` with the longest name behind it gives the value of that name and goes on behind the name. -/
structure SinglePass (values : Parameters) (S : Text → Text) : Prop where
  nil : S [] = []
  char : ∀ {c : Char} (t : Text), c ≠ '@' → S (c :: t) = c :: S t
  value : ∀ {t name value rest : Text}, Refers values t name value rest →
    S ('@' :: t) = value ++ S rest
  unknown : ∀ {t : Text}, ByOffset.NoName values t → S ('@' :: t) = '@' :: S t

section Order

variable {values order : Parameters} (hdistinct : (values.map Prod.fst).Nodup)
  (horder : order.Perm values)

include horder in
theorem noName_iff_of_perm {t : Text} : ByOffset.NoName order t ↔ ByOffset.NoName values t :=
  forall_congr' fun entry => by rw [horder.mem_iff]

include hdistinct

/-- If a name occurs once, its value is the one that stands with it. -/
theorem get?_eq_some_iff {name value : Text} :
    values.get? name = some value ↔ (name, value) ∈ values := by
  refine ⟨mem_of_get?, fun hmem => ?_⟩
  obtain ⟨front, back, rfl⟩ := append_of_mem hmem
  refine lookup_eq_some_iff.2 ⟨front, back, rfl, fun entry hentry => ?_⟩
  rw [map_append, map_cons, nodup_append] at hdistinct
  have hne := hdistinct.2.2 entry.1 (List.mem_map_of_mem hentry) name (by simp)
  simpa using Ne.symm hne

include horder

/-- The order of the parameters makes no difference to which name is the longest. -/
theorem longest_iff_refers {t name value rest : Text} :
    ByOffset.Longest order t name value rest ↔ Refers values t name value rest := by
  have hvalue : order.get? name = some value ↔ (name, value) ∈ values := by
    rw [get?_eq_some_iff ((horder.map Prod.fst).nodup_iff.2 hdistinct), horder.mem_iff]
  constructor
  · rintro ⟨hne, rfl, hmem, hlongest⟩
    refine ⟨hvalue.1 hmem, hne, rfl, fun entry hentry hfront => ?_⟩
    exact (byteSize_le_iff_length_le hfront (prefix_append _ _)).1
      (hlongest entry (horder.mem_iff.2 hentry) hfront)
  · rintro ⟨hmem, hne, rfl, hlongest⟩
    refine ⟨hne, rfl, hvalue.2 hmem, fun entry hentry hfront => ?_⟩
    exact (byteSize_le_iff_length_le hfront (prefix_append _ _)).2
      (hlongest entry (horder.mem_iff.1 hentry) hfront)

theorem singlePass_substitute : SinglePass values order.substitute where
  nil := substituted_iff.1 .nil
  char t hc := substituted_iff.1 (.char hc (substituted_substitute order t))
  value h := substituted_iff.1 (.value ((longest_iff_refers hdistinct horder).2 h)
    (substituted_substitute order _))
  unknown h := substituted_iff.1 (.unknown ((noName_iff_of_perm horder).2 h)
    (substituted_substitute order _))

/-- What is put together piece by piece is what a single pass gives. -/
theorem SinglePass.eq_of_substituted {S : Text → Text} (hS : SinglePass values S) {t out : Text}
    (h : Substituted order t out) : out = S t := by
  induction h with
  | nil => exact hS.nil.symm
  | char hc _ ih => rw [hS.char _ hc, ih]
  | value hlong _ ih => rw [hS.value ((longest_iff_refers hdistinct horder).1 hlong), ih]
  | unknown hno _ ih => rw [hS.unknown ((noName_iff_of_perm horder).1 hno), ih]

end Order

/-- The function that goes over a text once is substitution, whatever the order of the parameters
and whether the text is taken apart by characters or by offsets. -/
theorem singlePass_iff {values order : Parameters} (hdistinct : (values.map Prod.fst).Nodup)
    (horder : order.Perm values) (S : Text → Text) :
    SinglePass values S ↔ ∀ t, order.substitute t = S t ∧
      ByOffset.substituteFrom order (t.length + 1) t = some (S t) := by
  constructor
  · intro hS t
    have heq := SinglePass.eq_of_substituted hdistinct horder hS (substituted_substitute order t)
    exact ⟨heq, heq ▸ ByOffset.substituteFrom_eq order (Nat.lt_succ_self _)⟩
  · intro h
    obtain rfl : order.substitute = S := funext fun t => (h t).1
    exact singlePass_substitute hdistinct horder

/-- One name starts the other, their letters have two bytes, and the shorter one is given first. The
value that is put in holds a reference, which stays. -/
theorem singlePass_iff_nested :
    (List.map Prod.fst [("äb".toList, "@ä".toList), ("ä".toList, "x".toList)]).Nodup ∧
    List.Perm [("ä".toList, "x".toList), ("äb".toList, "@ä".toList)]
      [("äb".toList, "@ä".toList), ("ä".toList, "x".toList)] ∧
    ∃ S, SinglePass [("äb".toList, "@ä".toList), ("ä".toList, "x".toList)] S ∧
      S "@äb@ä@c".toList = "@äx@c".toList := by
  have hdistinct :
      (List.map Prod.fst [("äb".toList, "@ä".toList), ("ä".toList, "x".toList)]).Nodup := by
    decide
  have horder := List.Perm.swap ("äb".toList, "@ä".toList) ("ä".toList, "x".toList) []
  refine ⟨hdistinct, horder, _, (singlePass_iff hdistinct horder _).2 fun t => ⟨rfl, ?_⟩, ?_⟩
  · exact ByOffset.substituteFrom_eq _ (Nat.lt_succ_self _)
  · decide +kernel

/-! ## Names that are not referred to -/

/-- The parameters without a value for the name. -/
def without (values : Parameters) (name : Text) : Parameters :=
  values.filter fun entry => entry.1 != name

end Parameters

/-- A name can be left out if no reference to it occurs. -/
theorem Substituted.without {values : Parameters} {t out name : Text}
    (h : Substituted values t out) (hno : ¬ '@' :: name <:+: t) :
    Substituted (values.without name) t out := by
  induction h with
  | nil => exact .nil
  | char hc _ ih =>
    exact .char hc (ih fun hin => hno (hin.trans (suffix_cons _ _).isInfix))
  | @value t name' _ rest _ hlong _ ih =>
    have hfront : ¬ name <+: t := fun hfront => hno ((prefix_cons_inj '@').2 hfront).isInfix
    have hne : name' ≠ name := by
      rintro rfl
      exact hfront ⟨rest, hlong.text.symm⟩
    have hrest : rest <:+ '@' :: t := ⟨'@' :: name', by rw [hlong.text]; rfl⟩
    refine .value ⟨hlong.ne_nil, hlong.text, ?_, fun entry hentry => ?_⟩
      (ih fun hin => hno (hin.trans hrest.isInfix))
    · rw [Parameters.without, Parameters.get?_filter_ne values hne]
      exact hlong.value
    · exact hlong.longest entry (mem_filter.1 hentry).1
  | unknown hnone _ ih =>
    exact .unknown (fun entry hentry => hnone entry (mem_filter.1 hentry).1)
      (ih fun hin => hno (hin.trans (suffix_cons _ _).isInfix))

namespace Parameters

theorem substitute_without {t name : Text} (values : Parameters) (h : ¬ '@' :: name <:+: t) :
    (values.without name).substitute t = values.substitute t :=
  substituted_iff.1 ((substituted_substitute values t).without h)

/-- Whether a name is given, left to its default or not there at all makes no difference for the
other names. -/
theorem without_withDefaults_insert (values defaults : Parameters) (name value : Text) :
    ((values.insert name value).withDefaults defaults).without name =
      ((values.without name).withDefaults defaults).without name := by
  have hdefaults : ∀ entry ∈ defaults,
      (entry.1 != name && ((values.insert name value).get? entry.1).isNone) =
        (entry.1 != name && ((values.without name).get? entry.1).isNone) := by
    intro entry _
    by_cases hname : entry.1 = name
    · simp [hname]
    · rw [get?_insert, if_neg hname, without, get?_filter_ne values hname]
  simp only [without, withDefaults, insert, filter_append, List.filter_filter,
    filter_cons, bne_self_eq_false, Bool.and_self] at hdefaults ⊢
  rw [filter_congr hdefaults]
  rfl

end Parameters

/-- A parameter about which a warning is given has no effect : with any value for its name a
template renders to what it renders to without one, also if it declares a default for the name. -/
theorem render_insert_of_unreferenced (grammar : Grammar) (template : Text)
    (parameters : Parameters) (name value : Text)
    (h : (Parameters.unreferenced (Default.extract template).1 [name]).map
      Parameters.unreferencedWarning ≠ []) :
    render grammar template (parameters.insert name value) =
      render grammar template (parameters.without name) := by
  have hno : ¬ '@' :: name <:+: (Default.extract template).1 := by
    rw [← cut?_eq_none_iff]
    simpa [Parameters.unreferenced, includes] using h
  simp only [render]
  rw [← Parameters.substitute_without _ hno, Parameters.without_withDefaults_insert,
    Parameters.substitute_without _ hno]

/-- A name with a declared default. The template refers to another one, which is its start. -/
theorem render_insert_of_unreferenced_declared :
    (Parameters.unreferenced (Default.extract "\x7bDEFAULT @ab = 1\x7d@a-@ax".toList).1
      ["ab".toList]).map Parameters.unreferencedWarning ≠ [] ∧
    (render .extended "\x7bDEFAULT @ab = 1\x7d@a-@ax".toList
      (Parameters.insert [("ab".toList, "2".toList), ("a".toList, "y".toList)] "ab".toList
        "3".toList)).toOption = some "y-yx".toList := by
  have hunused : (Parameters.unreferenced
      (Default.extract "\x7bDEFAULT @ab = 1\x7d@a-@ax".toList).1
      ["ab".toList]).map Parameters.unreferencedWarning ≠ [] := by decide +kernel
  refine ⟨hunused, ?_⟩
  rw [render_insert_of_unreferenced _ _ _ _ _ hunused]
  decide +kernel

end SqlScript
