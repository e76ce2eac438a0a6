import Mathlib.Logic.Relation
import SqlScript.Proofs.Listing

/-!
# Rewriting rows step by step

A run changes the matches of a pattern one after another. Where each match of a row is rewritten
into cells, and into the same ones at every index (`Row.Rewrite`), the run ends with a row, again
the same at every index (`Row.exists_run`). It ends since the next search starts behind the first
cell of the match, and the new cells behind that hold the first literal of the pattern no more often
than the old ones. Each step on the way rewrites a match in the text of a row
(`Row.exists_rewrite`).
-/

namespace SqlScript

open List Option Layout.Cell BigQuery Progress Text

/-- A run on the text comes to the state. -/
def Progress.Reaches (step : Progress → Except Error (Option Progress)) (sql : Text) :
    Progress → Prop :=
  Relation.ReflTransGen (fun a b => step a = .ok (some b)) ⟨sql, 0⟩

namespace Layout

variable {σ : Type}

namespace Row

theorem length_le_length_text (s : σ) (row : Row σ) : row.length ≤ (text s row).length := by
  induction row with
  | nil => simp
  | cons cell row ih =>
    have hpos := length_pos_iff.2 cell.lexeme.text_ne_nil
    simp only [text_cons, length_append, length_cons]
    omega

theorem text_of_getLast? (s : σ) {row : Row σ} {last : Cell σ} (h : row.getLast? = some last) :
    text s row = body s row ++ last.gap s := by
  obtain ⟨init, rfl⟩ := getLast?_eq_some_iff.1 h
  simp [body_concat]

/-! ## Replacing a match -/

/-- Texts that are the same up to case run together with the same texts. -/
theorem apart_congr {a a' b b' : Text} (ha : a.toLowerAscii = a'.toLowerAscii)
    (hb : b.toLowerAscii = b'.toLowerAscii) (h : Apart a b) : Apart a' b' := by
  have hfuses : ∀ x y : Char, fuses x.toLower y.toLower = fuses x y := by
    intro x y
    have heq : ∀ {c d : Char}, isWordChar d = false → (c.toLower == d) = (c == d) := by
      intro c d hd
      rw [Bool.eq_iff_iff, beq_iff_eq, beq_iff_eq, toLower_eq_iff hd]
    simp only [fuses, isWordChar_toLower, heq (show isWordChar '-' = false by decide),
      heq (show isWordChar '/' = false by decide), heq (show isWordChar '*' = false by decide)]
  rw [apart_iff] at h ⊢
  intro x hx y hy
  have hlast := congrArg List.getLast? ha
  have hhead := congrArg List.head? hb
  rw [toLowerAscii, toLowerAscii, getLast?_map, getLast?_map, hx,
    map_some, map_eq_some_iff] at hlast
  rw [toLowerAscii, toLowerAscii, head?_map, head?_map, hy, map_some, map_eq_some_iff] at hhead
  obtain ⟨x', hx', hxx⟩ := hlast
  obtain ⟨y', hy', hyy⟩ := hhead
  rw [← hfuses, ← hxx, ← hyy, hfuses]
  exact h x' hx' y' hy'

/-- Other cells may stand in the place of the cells of a match : up to case the first lexeme and the
last cell are the same, and neither the text nor a `$` stands there more often than before. -/
structure Rewrite (text : Text) (cells new : Row σ) : Prop where
  legible : Legible new
  first : new.head?.map (·.lexeme.shape) = cells.head?.map (·.lexeme.shape)
  last : new.getLast?.map ending = cells.getLast?.map ending
  weight : weight text new ≤ weight text cells
  dollar : Row.weight ['$'] new ≤ Row.weight ['$'] cells

variable {cells new : Row σ}

/-- Where the cells end alike, the same can stand behind them. -/
theorem Legible.append_of_ending {a a' later : Row σ} (ha : Legible a') (h : Legible (a ++ later))
    (hend : a'.getLast?.map ending = a.getLast?.map ending) : Legible (a' ++ later) := by
  obtain ⟨-, hlater, hseam⟩ := isChain_append.1 h
  refine isChain_append.2 ⟨ha, hlater, fun last hlast first hfirst s => ?_⟩
  rw [mem_def.1 hlast, map_some, eq_comm, map_eq_some_iff] at hend
  obtain ⟨other, hother, hending⟩ := hend
  obtain ⟨hshape, hgap⟩ := Prod.mk.inj hending
  rw [← hgap]
  exact (hseam other hother first hfirst s).imp_right
    (apart_congr (Prod.mk.inj hshape).2 rfl)

/-- Where the cells start alike, they can stand behind the same. -/
theorem Legible.append_of_shape {pre a a' : Row σ} (h : Legible (pre ++ a)) (ha : Legible a')
    (hhead : a'.head?.map (·.lexeme.shape) = a.head?.map (·.lexeme.shape)) :
    Legible (pre ++ a') := by
  obtain ⟨hpre, -, hseam⟩ := isChain_append.1 h
  refine isChain_append.2 ⟨hpre, ha, fun last hlast first hfirst s => ?_⟩
  rw [mem_def.1 hfirst, map_some, eq_comm, map_eq_some_iff] at hhead
  obtain ⟨other, hother, hshape⟩ := hhead
  exact (hseam last hlast other hother s).imp_right (apart_congr rfl (Prod.mk.inj hshape).2)

theorem Rewrite.legible_append {text : Text} (h : Rewrite text cells new) {pre later : Row σ}
    (hlegible : Legible (pre ++ (cells ++ later))) : Legible (pre ++ (new ++ later)) := by
  refine hlegible.append_of_shape
    (h.legible.append_of_ending (isChain_append.1 hlegible).2.1 h.last) ?_
  rw [head?_append, head?_append, map_or, map_or, h.first]

theorem Rewrite.getLast?_append {text : Text} (h : Rewrite text cells new) (pre later : Row σ) :
    (pre ++ (new ++ later)).getLast?.map ending =
      (pre ++ (cells ++ later)).getLast?.map ending := by
  simp only [List.getLast?_append, map_or, h.last]

/-- A part with the last cell of a match behind it can stand in the place of the match. -/
theorem rewrite_of_starts {text : Text} {part : Part σ} {lexeme : Lexeme} {last : Cell σ}
    (hstarts : part.Starts lexeme) (hfirst : cells.head?.map (·.lexeme.shape) = some lexeme.shape)
    (hlast : cells.getLast?.map ending = some last.ending) (hlegible : Legible part.row)
    (hseam : part.Closes ∨ (Part.ofRow [last]).Opens)
    (hweight : ∀ word, word = text ∨ word = ['$'] →
      part.weight word + weight word [last] ≤ weight word cells) :
    Rewrite text cells (part ++ .ofRow [last]).row where
  legible := Part.legible_append hlegible (isChain_singleton _) hseam
  first := by
    have hhead := (hstarts.append (.ofRow [last])).head
    rw [Part.lexemes, head?_map] at hhead
    obtain ⟨cell, hcell, rfl⟩ := map_eq_some_iff.1 hhead
    rw [hcell, hfirst]
    rfl
  last := by
    rw [Part.getLast?_append_ofRow, hlast]
    rfl
  weight := by
    have hle := hweight text (.inl rfl)
    rwa [← Part.weight_ofRow, ← Part.weight_append] at hle
  dollar := by
    have hle := hweight ['$'] (.inr rfl)
    rwa [← Part.weight_ofRow, ← Part.weight_append] at hle

/-- The match of what was taken behind the front, as a search reports it. -/
def Taken.report (s : σ) (lead : Text) (pre : Row σ) (taken : Taken σ) : PatternMatch where
  start := (lead ++ text s pre).byteSize
  stop := (lead ++ text s pre ++ body s taken.cells).byteSize
  startToken := (keys pre).length
  bindings := bind s [] taken.captures

theorem report_eq (s : σ) (lead : Text) (before : Row σ) (found : Found σ) :
    found.report s (lead ++ text s before) (keys before).length =
      found.taken.report s lead (before ++ found.front) := by
  simp [Found.report, Taken.report]

@[simp]
theorem Taken.capture_report (s : σ) (lead : Text) (pre : Row σ) (taken : Taken σ)
    (name : String) :
    capture (taken.report s lead pre) name = text s (trimEnd (taken.get name.toList)) :=
  Row.capture_report s lead 0 ⟨[], taken⟩ name

/-- The same filler stands behind the last lexeme. -/
theorem Rewrite.exists_gap {text : Text} (h : Rewrite text cells new) (hne : cells ≠ []) (s : σ) :
    ∃ gap, Filler gap ∧ Row.text s cells = body s cells ++ gap ∧
      Row.text s new = body s new ++ gap := by
  have hlast := getLast?_eq_some_getLast hne
  have hends := h.last
  rw [hlast, map_some, map_eq_some_iff] at hends
  obtain ⟨last, hlast', hending⟩ := hends
  have hgap : last.gap = (cells.getLast hne).gap := (Prod.mk.inj hending).2
  exact ⟨_, (cells.getLast hne).filler s, text_of_getLast? s hlast,
    hgap ▸ text_of_getLast? s hlast'⟩

/-- Around the cells of a match the text stays, and so do the tokens. -/
theorem Rewrite.exists_back {text : Text} (h : Rewrite text cells new) (hne : cells ≠ []) (s : σ)
    {lead : Text} (hlead : Heading lead) {pre later : Row σ}
    (hlegible : Legible (pre ++ (cells ++ later))) : ∃ back : Text,
      lead ++ Row.text s (pre ++ (cells ++ later)) =
        lead ++ Row.text s pre ++ body s cells ++ back ∧
      lead ++ Row.text s (pre ++ (new ++ later)) = lead ++ Row.text s pre ++ body s new ++ back ∧
      (lead ++ Row.text s (pre ++ (cells ++ later))).keys =
        (lead ++ Row.text s pre).keys ++ (keys cells ++ back.keys) ∧
      (lead ++ Row.text s (pre ++ (new ++ later))).keys =
        (lead ++ Row.text s pre).keys ++ (keys new ++ back.keys) := by
  obtain ⟨gap, hgap, hold, hnew⟩ := h.exists_gap hne s
  have hfront : (lead ++ Row.text s pre).keys = keys pre :=
    map_key_tokens_text (hlegible.of_isInfix (prefix_append _ _).isInfix) s hlead
  have hback : (gap ++ Row.text s later).keys = keys later :=
    map_key_tokens_text (hlegible.of_isInfix ⟨pre ++ cells, [], by simp⟩) s hgap.heading
  refine ⟨gap ++ Row.text s later, by simp [hold], by simp [hnew], ?_, ?_⟩
  · rw [hfront, hback, ← keys_append, ← keys_append]
    exact map_key_tokens_text hlegible s hlead
  · rw [hfront, hback, ← keys_append, ← keys_append]
    exact map_key_tokens_text (h.legible_append hlegible) s hlead

/-- The text of a match is replaced up to the end of its last lexeme. -/
theorem Rewrite.replaceSlice_text {text : Text} (h : Rewrite text cells new) (hne : cells ≠ [])
    (s : σ) (lead : Text) (pre later : Row σ) :
    replaceSlice (lead ++ Row.text s (pre ++ (cells ++ later)))
        (lead ++ Row.text s pre).byteSize (lead ++ Row.text s pre ++ body s cells).byteSize
        (body s new) = .ok (lead ++ Row.text s (pre ++ (new ++ later))) := by
  obtain ⟨gap, -, hold, hnew⟩ := h.exists_gap hne s
  have hsql : lead ++ Row.text s (pre ++ (cells ++ later)) =
      lead ++ Row.text s pre ++ (body s cells ++ (gap ++ Row.text s later)) := by
    simp [hold]
  rw [hsql, replaceSlice_append rfl rfl]
  simp [hnew]

end Row

/-! ## Runs -/

/-- A family of runs in which each step is the same at every index. -/
theorem exists_repeatSteps {α State : Type} {step : State → Except Error (Option State)}
    {at_ : σ → α → State} {Inv : α → Prop} {μ : α → Nat}
    (hstep : ∀ a, Inv a → (∀ s, step (at_ s a) = .ok none) ∨
      ∃ b, Inv b ∧ μ b < μ a ∧ ∀ s, step (at_ s a) = .ok (some (at_ s b)))
    {a : α} (ha : Inv a) : ∃ b, Inv b ∧ ∀ s limit, μ a < limit →
      repeatSteps step limit (at_ s a) = .ok (at_ s b) := by
  induction hmeasure : μ a using Nat.strongRecOn generalizing a with
  | ind n ih =>
    subst hmeasure
    rcases hstep a ha with hnone | ⟨b, hb, hlt, hsome⟩
    · refine ⟨a, ha, fun s limit hlimit => ?_⟩
      obtain ⟨limit, rfl⟩ : ∃ n, limit = n + 1 := ⟨limit - 1, by omega⟩
      rw [repeatSteps, hnone s]
      rfl
    · obtain ⟨c, hc, hrun⟩ := ih (μ b) hlt hb rfl
      refine ⟨c, hc, fun s limit hlimit => ?_⟩
      obtain ⟨limit, rfl⟩ : ∃ n, limit = n + 1 := ⟨limit - 1, by omega⟩
      rw [repeatSteps, hsome s]
      exact hrun s limit (by omega)

theorem lt_stepLimit {n : Nat} {t : Text} (h : n ≤ t.length) : n < stepLimit t := by
  have hsize : 1 ≤ UInt64.size := by decide
  calc n < 1 * (t.length + 1) := by omega
    _ ≤ UInt64.size * (t.length + 1) := Nat.mul_le_mul_right _ hsize

namespace Row

/-- No `$` stands in the row, unless there is one index only. -/
def Unmarked (row : Row σ) : Prop :=
  weight ['$'] row = 0 ∨ Subsingleton σ

theorem Unmarked.of_isInfix {a b : Row σ} (hb : Unmarked b) (h : a <:+: b) : Unmarked a := by
  refine hb.imp_left fun hzero => ?_
  have hle := weight_le_of_isInfix ['$'] h
  omega

/-- How far a run has come : the cells before the token at which to look next, and the others. -/
structure Place (σ : Type) where
  before : Row σ
  row : Row σ

/-- The state of a run at the place. -/
def Place.progress (lead : σ → Text) (s : σ) (place : Place σ) : Progress :=
  ⟨lead s ++ Row.text s (place.before ++ place.row), (keys place.before).length⟩

section Run

variable {pattern : Pattern} {text : Text} {blocks : List PatternBlock}
  (hblocks : pattern.blocks = .literal text :: blocks)
  (hsimple : ∀ block ∈ pattern.blocks, block.Simple)
  {step : Progress → Except Error (Option Progress)}
  (rewrite : Text → PatternMatch → Except Error Text)
  (hstep : ∀ state, step state = do
    match ← findClause state.sql pattern state.first with
    | none => return none
    | some found => return some ⟨← rewrite state.sql found, found.startToken + 1⟩)
  {lead : σ → Text} (hlead : ∀ s, Heading (lead s))

include hblocks hsimple hstep hlead

/-- A step finds nothing, at any index, or it rewrites the first match. -/
theorem step_cases {place : Place σ} (hlegible : Legible (place.before ++ place.row)) :
    (∀ s, step (place.progress lead s) = .ok none) ∨ ∃ (front : Row σ) (taken : Taken σ),
      place.row = front ++ (taken.cells ++ taken.later) ∧
      Takes pattern.blocks taken.cells taken.captures ∧
      ∀ s, findClause (place.progress lead s).sql pattern (place.progress lead s).first =
          .ok (some (taken.report s (lead s) (place.before ++ front))) ∧
        step (place.progress lead s) = do
          return some ⟨← rewrite (place.progress lead s).sql
              (taken.report s (lead s) (place.before ++ front)),
            (keys (place.before ++ front)).length + 1⟩ := by
  have hfind : ∀ s, findClause (place.progress lead s).sql pattern
      (place.progress lead s).first = _ :=
    fun s => findClause_text s hblocks hsimple (hlead s) hlegible
  cases hlocate : locate? pattern.blocks place.row with
  | none =>
    refine .inl fun s => ?_
    rw [hstep, hfind s, hlocate]
    rfl
  | some found =>
    obtain ⟨hrow, htakes⟩ := eq_of_locate? hlocate
    refine .inr ⟨found.front, found.taken, hrow, htakes, fun s => ?_⟩
    have hfound := hfind s
    rw [hlocate, map_some, report_eq] at hfound
    exact ⟨hfound, by rw [hstep, hfound]; rfl⟩

variable (hrewrite : ∀ (pre : Row σ) (taken : Taken σ),
  Legible (pre ++ (taken.cells ++ taken.later)) →
  Unmarked (pre ++ (taken.cells ++ taken.later)) →
  Takes pattern.blocks taken.cells taken.captures →
  ∃ new, Rewrite text taken.cells new ∧ ∀ s,
    rewrite (lead s ++ Row.text s (pre ++ (taken.cells ++ taken.later)))
      (taken.report s (lead s) pre) =
    .ok (lead s ++ Row.text s (pre ++ (new ++ taken.later))))

include hrewrite

/-- Where matches are rewritten into the same cells at every index, a step leads to a place again,
and the first literal of the pattern stands less often behind it. -/
theorem exists_next {place : Place σ} (hlegible : Legible (place.before ++ place.row))
    (hdollar : Unmarked (place.before ++ place.row)) :
    (∀ s, step (place.progress lead s) = .ok none) ∨ ∃ next : Place σ,
      (Legible (next.before ++ next.row) ∧ Unmarked (next.before ++ next.row) ∧
        (next.before ++ next.row).getLast?.map ending =
          (place.before ++ place.row).getLast?.map ending) ∧
      weight text next.row < weight text place.row ∧
      ∀ s, step (place.progress lead s) = .ok (some (next.progress lead s)) := by
  refine (step_cases hblocks hsimple rewrite hstep hlead hlegible).imp_right ?_
  rintro ⟨front, taken, hrow, htakes, hresult⟩
  have hwhole : place.before ++ place.row =
      place.before ++ front ++ (taken.cells ++ taken.later) := by
    rw [hrow, append_assoc]
  rw [hwhole] at hlegible hdollar
  obtain ⟨new, hnew, htext⟩ := hrewrite _ _ hlegible hdollar htakes
  obtain ⟨a, rest, hcells, hisText, -⟩ : Takes (.literal text :: blocks) taken.cells
    taken.captures := hblocks ▸ htakes
  obtain ⟨b, rest', rfl, hshape⟩ : ∃ b rest', new = b :: rest' ∧
      b.lexeme.shape = a.lexeme.shape := by
    have hfirst := hnew.first
    rw [hcells] at hfirst
    obtain ⟨b, hb, hshape⟩ := map_eq_some_iff.1 hfirst
    obtain ⟨rest', rfl⟩ := head?_eq_some_iff.1 hb
    exact ⟨b, rest', rfl, hshape⟩
  have hsplit : place.before ++ front ++ [b] ++ (rest' ++ taken.later) =
      place.before ++ front ++ (b :: rest' ++ taken.later) := by simp
  have hisText' : b.is text := is_congr hshape text ▸ hisText
  refine ⟨⟨place.before ++ front ++ [b], rest' ++ taken.later⟩, ⟨?_, ?_, ?_⟩, ?_, fun s => ?_⟩
  · simp only [hsplit]
    exact hnew.legible_append hlegible
  · simp only [hsplit]
    refine hdollar.imp_left fun hdollar => ?_
    have hle := hnew.dollar
    simp only [weight_append] at hdollar ⊢
    omega
  · simp only [hsplit, hwhole]
    exact hnew.getLast?_append _ _
  · have hle := hnew.weight
    rw [hcells, weight_cons_is hisText, weight_cons_is hisText', if_pos rfl] at hle
    simp only [hrow, hcells, weight_append, weight_cons_is hisText, if_pos]
    omega
  · have hkeys : (keys (place.before ++ front ++ [b])).length =
        (keys (place.before ++ front)).length + 1 := by
      rw [keys_append, keys_cons, keys_nil,
        Lexeme.keys_of_isLiteral_eq_false (is_iff.1 hisText').1, append_nil,
        length_append, length_singleton]
    rw [(hresult s).2]
    simp only [Place.progress, hwhole, htext s, ok_bind, hsplit, hkeys]
    rfl

/-- A run that rewrites the matches of a pattern into the same cells at every index ends with the
same row at every index. -/
theorem exists_run {row : Row σ} (hlegible : Legible row) (hdollar : Unmarked row) :
    ∃ row', Legible row' ∧ Unmarked row' ∧
      row'.getLast?.map ending = row.getLast?.map ending ∧ ∀ s,
        run step (lead s ++ Row.text s row) = .ok (lead s ++ Row.text s row') := by
  let Inv : Place σ → Prop := fun place => Legible (place.before ++ place.row) ∧
    Unmarked (place.before ++ place.row) ∧
    (place.before ++ place.row).getLast?.map ending = row.getLast?.map ending
  have hone : ∀ place, Inv place → (∀ s, step (place.progress lead s) = .ok none) ∨
      ∃ next, Inv next ∧ weight text next.row < weight text place.row ∧
        ∀ s, step (place.progress lead s) = .ok (some (next.progress lead s)) := by
    rintro place ⟨hlegible, hdollar, hlast⟩
    refine (exists_next hblocks hsimple rewrite hstep hlead hrewrite hlegible hdollar).imp_right ?_
    rintro ⟨next, ⟨hnext, hdollar', hlast'⟩, hless, hresult⟩
    exact ⟨next, ⟨hnext, hdollar', hlast'.trans hlast⟩, hless, hresult⟩
  obtain ⟨place, ⟨hlegible', hdollar', hlast'⟩, hrun⟩ := exists_repeatSteps
    (μ := fun place : Place σ => weight text place.row) hone
    (a := ⟨[], row⟩) ⟨hlegible, hdollar, rfl⟩
  refine ⟨place.before ++ place.row, hlegible', hdollar', hlast', fun s => ?_⟩
  have hlimit : weight text row < stepLimit (lead s ++ Row.text s row) := by
    refine lt_stepLimit ((weight_le_length text row).trans ((length_le_length_text s row).trans ?_))
    rw [length_append]
    exact Nat.le_add_left _ _
  have hfinal := hrun s _ hlimit
  rw [run]
  exact congrArg (· >>= _) hfinal

/-- Every state of a run over a row is one at a place. -/
theorem exists_place {row : Row σ} (hlegible : Legible row) (hdollar : Unmarked row) {s : σ}
    {state : Progress} (h : Reaches step (lead s ++ Row.text s row) state) :
    ∃ place : Place σ, (Legible (place.before ++ place.row) ∧
      Unmarked (place.before ++ place.row)) ∧ state = place.progress lead s := by
  induction h with
  | refl => exact ⟨⟨[], row⟩, ⟨hlegible, hdollar⟩, rfl⟩
  | tail _ hnext ih =>
    obtain ⟨place, ⟨hplace, hmarks⟩, rfl⟩ := ih
    rcases exists_next hblocks hsimple rewrite hstep hlead hrewrite hplace hmarks with
      hnone | ⟨next, ⟨hlegible', hdollar', -⟩, -, hresult⟩
    · exact absurd ((hnone s).symm.trans hnext) (by simp)
    · exact ⟨next, ⟨hlegible', hdollar'⟩,
        (Option.some.inj (Except.ok.inj ((hresult s).symm.trans hnext))).symm⟩

/-- Every step of a run over a row rewrites a match. -/
theorem exists_rewrite {row : Row σ} (hlegible : Legible row) (hdollar : Unmarked row) {s : σ}
    {state next : Progress} (h : Reaches step (lead s ++ Row.text s row) state)
    (hnext : step state = .ok (some next)) : ∃ (pre : Row σ) (taken : Taken σ),
      Legible (pre ++ (taken.cells ++ taken.later)) ∧
      Takes pattern.blocks taken.cells taken.captures ∧
      state.sql = lead s ++ Row.text s (pre ++ (taken.cells ++ taken.later)) ∧
      findClause state.sql pattern state.first =
        .ok (some (taken.report s (lead s) pre)) ∧
      rewrite state.sql (taken.report s (lead s) pre) = .ok next.sql := by
  obtain ⟨place, ⟨hplace, -⟩, rfl⟩ :=
    exists_place hblocks hsimple rewrite hstep hlead hrewrite hlegible hdollar h
  rcases step_cases hblocks hsimple rewrite hstep hlead hplace with
    hnone | ⟨front, taken, hrow, htakes, hresult⟩
  · exact absurd ((hnone s).symm.trans hnext) (by simp)
  · obtain ⟨hfind, hdone⟩ := hresult s
    obtain ⟨sql, hsql, hend⟩ := exists_of_bind_eq_ok (hdone.symm.trans hnext)
    cases hend
    refine ⟨place.before ++ front, taken, ?_, htakes, ?_, hfind, hsql⟩
    · rwa [append_assoc, ← hrow]
    · rw [append_assoc, ← hrow]
      rfl

end Run

end Row

end Layout

end SqlScript
