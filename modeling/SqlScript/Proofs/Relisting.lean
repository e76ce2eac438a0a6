import SqlScript.Proofs.RowRun

/-!
# Lists with changed elements

A list is printed again with other elements : the clause before it, the new elements joined by
commas, the clause behind it (`Listing.relisted`). Where the new elements are parts, and the same
ones at every index (`exists_mapM_text`), the list is a part again. It is legible, and a word stands
in it no more often than in the old one if that holds of each element
(`Listing.weight_relisted_le`).
-/

namespace SqlScript

open List Layout.Row

namespace Layout

variable {σ : Type}

open BigQuery (ListKind)

/-- The list with other elements between its clauses. -/
def Listing.relisted (listing : Listing σ) (parts : List (Part σ)) : Part σ :=
  listing.lead ++ .join parts ++ listing.tail

theorem Listing.text_relisted (s : σ) (listing : Listing σ) (parts : List (Part σ)) :
    (listing.relisted parts).text s = listing.lead.text s ++
      BigQuery.CommaList.join (parts.map (Part.text s)) ++ listing.tail.text s := by
  rw [relisted, Part.text_append, Part.text_append, Part.text_join]

theorem Listing.legible_relisted (kind : ListKind) {row : Row σ} (hlegible : Legible row)
    (hclosed : Closed row) {parts : List (Part σ)}
    (hparts : ∀ part ∈ parts, Legible part.row) :
    Legible ((ofRow kind row).relisted parts).row := by
  obtain ⟨hlead, htail, -⟩ := legible_ofRow kind hlegible hclosed
  refine Part.legible_append ?_ htail.legible (.inr htail.opens)
  exact Part.legible_append hlead.legible (Part.legible_join hparts) (.inl hlead.closes)

/-- A word stands in the new list no more often than in the old one, if that holds of the
elements. -/
theorem Listing.weight_relisted_le (kind : ListKind) (row : Row σ) {parts : List (Part σ)}
    {word : Text} (hparts : Forall₂ (fun item part => Part.weight word part ≤
      weight word item.expression + weight word item.suffix) (ofRow kind row).items parts) :
    ((ofRow kind row).relisted parts).weight word ≤ weight word row := by
  have hrow := weight_ofRow_le kind row word
  have hsum : (parts.map (Part.weight word)).sum ≤ ((ofRow kind row).items.map fun item =>
      weight word item.expression + weight word item.suffix).sum :=
    (forall₂_map_left_iff.2 (forall₂_map_right_iff.2 hparts.flip)).sum_le_sum
  rw [relisted, Part.weight_append, Part.weight_append, Part.weight_join, ← hparts.length_eq]
  omega

theorem forall_mem_of_forall₂ {α β : Type} {R : α → β → Prop} {P : β → Prop} {as : List α}
    {bs : List β} (h : Forall₂ R as bs) (hp : ∀ a ∈ as, ∀ b, R a b → P b) : ∀ b ∈ bs, P b := by
  induction h with
  | nil => simp
  | cons hab _ ih =>
    rw [forall_mem_cons] at hp ⊢
    exact ⟨hp.1 _ hab, ih hp.2⟩

/-- Texts that are parts, and the same ones at every index. -/
theorem exists_mapM_text {α : Type} {f : σ → α → Except Error Text} {P : α → Part σ → Prop}
    {items : List α}
    (h : ∀ item ∈ items, ∃ part, P item part ∧ ∀ s, f s item = .ok (part.text s)) :
    ∃ parts, Forall₂ P items parts ∧ ∀ s, items.mapM (f s) = .ok (parts.map (Part.text s)) := by
  induction items with
  | nil => exact ⟨[], .nil, fun _ => rfl⟩
  | cons item items ih =>
    rw [forall_mem_cons] at h
    obtain ⟨part, hpart, hitem⟩ := h.1
    obtain ⟨parts, hparts, hitems⟩ := ih h.2
    refine ⟨part :: parts, .cons hpart hparts, fun s => ?_⟩
    rw [mapM_cons, hitem, ok_bind, hitems]
    rfl

end Layout

end SqlScript
