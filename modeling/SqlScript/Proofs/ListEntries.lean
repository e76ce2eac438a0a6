import SqlScript.Proofs.Phrase
import SqlScript.Proofs.Summands

/-!
# The entries of a list

A list is cut at its commas outside of parentheses and quotes, so the texts that commas join are its
elements again, trimmed (`BigQuery.CommaList.parse_intercalate`). An entry is a row without such a
comma (`Layout.Row.isElement_of_inside`).
-/

namespace SqlScript

open List BigQuery Concat Layout.Row

namespace BigQuery.CommaList

/-- What may stand between the commas of a list : a text without comments and with closed quotes and
parentheses, in which no comma and no `;` stands outside of these. -/
structure IsEntry (t : Text) : Prop where
  uncommented : Uncommented t
  closed : ∃ run, tokenize t = .ok run
  balanced : t.keys.foldl depthAfter 0 = 0
  inside : ∀ i (h : i < t.keys.length), t.keys[i] ∈ [mark ',', mark ';', mark ')'] →
    (t.keys.take i).foldl depthAfter 0 ≠ 0

end BigQuery.CommaList

namespace Layout

variable {σ : Type} {depth : Nat} {row : Row σ}

theorem foldl_depthAfter_keys (cell : Cell σ) :
    cell.lexeme.keys.foldl depthAfter depth = cell.depthAfter depth := by
  cases hcell : cell.lexeme.isLiteral with
  | true =>
    have hsame : ∀ keys : List (Text × Bool), mark '(' ∉ keys → mark ')' ∉ keys →
        keys.foldl depthAfter depth = depth := by
      intro keys hopen hclose
      induction keys with
      | nil => rfl
      | cons key keys ih =>
        rw [mem_cons, not_or] at hopen hclose
        rw [foldl_cons, depthAfter, beq_false_of_ne (Ne.symm hopen.1),
          beq_false_of_ne (Ne.symm hclose.1)]
        exact ih hopen.2 hclose.2
    rw [hsame _ (mark_notMem_keys hcell (by decide)) (mark_notMem_keys hcell (by decide))]
    simp [Cell.depthAfter, Cell.is, hcell]
  | false =>
    rw [Lexeme.keys_of_isLiteral_eq_false hcell, foldl_cons, foldl_nil, depthAfter,
      beq_mark hcell (by decide) (by decide), beq_mark hcell (by decide) (by decide)]
    rfl

/-- The row of an entry is an element. -/
theorem Row.isElement_of_inside (hbalanced : (keys row).foldl depthAfter depth = 0)
    (hinside : ∀ i (h : i < (keys row).length), (keys row)[i] ∈ [mark ',', mark ';', mark ')'] →
      ((keys row).take i).foldl depthAfter depth ≠ 0) : isElement depth row := by
  induction row generalizing depth with
  | nil => exact beq_iff_eq.2 hbalanced
  | cons cell row ih =>
    rw [keys_cons, foldl_append, foldl_depthAfter_keys] at hbalanced
    have hrow := ih hbalanced fun i hi hmem => by
      have hfront := hinside (cell.lexeme.keys.length + i) (by simpa using hi) (by simpa using hmem)
      simpa [take_length_add_append, foldl_depthAfter_keys] using hfront
    have hcell : ∀ {c : Char}, cell.is [c] → c.isLower = false →
        mark c ∈ [mark ',', mark ';', mark ')'] → depth ≠ 0 := fun his hsmall hmem => by
      simp only [keys_cons_of_is his hsmall row] at hinside
      exact hinside 0 (by simp) hmem
    rw [isElement, hrow, Bool.and_true, Bool.not_eq_true', ← Bool.not_eq_true]
    simp only [Bool.and_eq_true, beq_iff_eq, Bool.or_eq_true]
    rintro ⟨hdepth, (his | his) | his⟩
    all_goals exact hcell his (by decide) (by decide) hdepth

open CommaList

/-- The entries of a list make up a closed row, and they are its segments. -/
theorem exists_row_intercalate {t : Text} {ts : List Text} (ht : IsEntry t)
    (hts : ∀ t ∈ ts, IsEntry t) : ∃ (lead : Text) (row : Row Unit), lead.Blank ∧
      Row.Legible row ∧ [','].intercalate (t :: ts) = lead ++ Row.text () row ∧ Closed row ∧
      (splitCommas 0 row).map (fun segment => Row.text () (trimEnd segment)) =
        (t :: ts).map Text.trim := by
  induction ts generalizing t with
  | nil =>
    obtain ⟨lead, row, hlead, hlegible, rfl, hkeys, htrim⟩ :=
      exists_trimmed ht.uncommented.isCommentFree ht.closed
    have helement : isElement 0 row := isElement_of_inside (hkeys ▸ ht.balanced) (hkeys ▸ ht.inside)
    exact ⟨lead, row, hlead, hlegible, by simp, closes_of_isElement helement,
      by simp [splitCommas_of_isElement helement, htrim]⟩
  | cons next ts ih =>
    rw [forall_mem_cons] at hts
    obtain ⟨gap, later, hgap, hlater, htext, hcloses, hmap⟩ := ih hts.1 hts.2
    obtain ⟨lead, row, hlead, hlegible, rfl, hkeys, htrim⟩ :=
      exists_trimmed ht.uncommented.isCommentFree ht.closed
    let comma : Cell Unit := (Cell.ofSymbol ',' (by decide)).spaced gap hgap
    have hinert : inert ',' := by decide
    have helement : isElement 0 row := isElement_of_inside (hkeys ▸ ht.balanced) (hkeys ▸ ht.inside)
    have hcomma : comma.is [','] := rfl
    refine ⟨lead, row ++ comma :: later, hlead, hlegible.append_cons (hlater.cons hinert) hinert,
      ?_, (closes_append_cons (closes_of_isElement helement) hcomma later).trans hcloses, ?_⟩
    · rw [intercalate_cons_cons, htext]
      simp [comma, Cell.spaced, Cell.ofSymbol, Lexeme.text]
    · rw [splitCommas_append helement hcomma, map_cons, hmap, htrim]
      rfl

end Layout

/-- The entries of a list, empty ones among them, are its elements, in their order. -/
theorem BigQuery.CommaList.parse_intercalate {entries : List Text} (hne : entries ≠ [])
    (h : ∀ t ∈ entries, IsEntry t) : CommaList.parse .values ([','].intercalate entries) =
      .ok ⟨[], entries.map fun t => ⟨t.trim, []⟩, []⟩ := by
  cases entries with
  | nil => exact absurd rfl hne
  | cons t entries =>
    rw [forall_mem_cons] at h
    obtain ⟨lead, row, hlead, hlegible, htext, hclosed, hmap⟩ :=
      Layout.exists_row_intercalate h.1 h.2
    have hparse := elementsOf_text .values () hlead hlegible hclosed
    have hmap' := congrArg (map fun t => (⟨t, []⟩ : Element)) hmap
    rw [map_map, map_map] at hmap'
    rw [parse, splitClauses, htext]
    exact (congrArg (fun es => es >>= fun es => Except.ok (⟨[], es, []⟩ : CommaList)) hparse).trans
      (congrArg (fun es => Except.ok (⟨[], es, []⟩ : CommaList)) hmap')

theorem BigQuery.CommaList.parse_intercalate_nested :
    (∀ t ∈ [" f(a, (b; c))\n".toList, [], "'x,''y' ".toList], IsEntry t) ∧
      CommaList.parse .values " f(a, (b; c))\n,,'x,''y' ".toList =
        .ok ⟨[], [⟨"f(a, (b; c))".toList, []⟩, ⟨[], []⟩, ⟨"'x,''y'".toList, []⟩], []⟩ := by
  have hentries : ∀ t ∈ [" f(a, (b; c))\n".toList, [], "'x,''y' ".toList], IsEntry t := by
    refine forall_mem_cons.2 ⟨?_, forall_mem_cons.2 ⟨?_, forall_mem_singleton.2 ?_⟩⟩
    all_goals exact ⟨by decide +kernel, ⟨_, tokenize_of_foldl (by decide +kernel)⟩,
      by decide +kernel, by decide +kernel⟩
  exact ⟨hentries, parse_intercalate (cons_ne_nil _ _) hentries⟩

end SqlScript
