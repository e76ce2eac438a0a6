import SqlScript.Proofs.Uncommented

/-!
# The text around a converted list

A list is taken out of a text and its conversion is put in its place, right behind the blanks after
`by` and right before the blanks at the end of the list (`Position.Splice`). The tokens of all that
stands around the list stay, with one exception : if no blank stands behind `by` and the new list
starts with a word, as in `group by(a)` with `(a)` in the select list, then `by` and that word
become one token (`Position.keys_convert`).
-/

namespace SqlScript

open BigQuery Layout Layout.Row Layout.Lexeme

namespace BigQuery.Position

/-- The patterns of the lists that are converted, with the kinds of these lists. -/
def passes : List (Pattern × ListKind) :=
  [(groupByPattern, .groupBy), (nestedGroupByPattern, .groupBy), (orderByPattern, .orderBy)]

/-- What stands around a list : a word `by` with a gap behind it, blanks and a terminator. -/
structure Splice where
  front : Text
  word : Text
  gap : Text
  trail : Text
  close : Text
  back : Text
  isBy : word.toLowerAscii = "by".toList
  blank : gap.Blank ∧ trail.Blank
  terminates : close = [';'] ∨ close = [')']

namespace Splice

/-- The text up to the end of the terminator, with a list in its place. -/
def upTo (splice : Splice) (list : Text) : Text :=
  splice.front ++ splice.word ++ splice.gap ++ list ++ splice.trail ++ splice.close

/-- The text with a list in its place. -/
def text (splice : Splice) (list : Text) : Text :=
  splice.upTo list ++ splice.back

/-- The tokens with others between the front and the terminator. -/
def around (splice : Splice) (middle : List (Text × Bool)) : List (Text × Bool) :=
  splice.front.keys ++ (middle ++ (splice.close, false) :: splice.back.keys)

theorem length_eq_of_around {splice : Splice} {a b : List (Text × Bool)}
    (h : splice.around a = splice.around b) : a.length = b.length := by
  have hlength := congrArg List.length h
  simp only [around, List.length_append] at hlength
  omega

/-- A list in this place runs together with `by`. -/
def Fuses (splice : Splice) (list : Text) : Prop :=
  splice.gap = [] ∧ list.head?.any isWordChar = true

/-- In the place of the list of a match stands its conversion. -/
structure Replaces (splice : Splice) (kind : ListKind) (found : PatternMatch) (list inserted : Text)
    : Prop where
  stop : found.stop = (splice.upTo list).byteSize
  captured : (found.bindings.get? ['r']).getD [] = list ++ splice.trail
  converts : ∃ select, CommaList.parse .select (capture found "s") = .ok select ∧
    converted kind select (list ++ splice.trail) = .ok inserted

end Splice

end BigQuery.Position

namespace Layout

/-! ## The tokens of the parts -/

section Keys

variable {lead trail : Text} {front later : Row Unit} {by_ last : Cell Unit} {part : Part Unit}
  (hlead : Heading lead) (htrail : trail.Blank) (hback : Legible (last :: later))
  (hlast : last.lexeme.text.head?.all inert = true) (hpart : Legible part.row)

include hlead htrail hback hlast hpart

/-- The tokens of a part before a terminator, with blanks between them. -/
theorem keys_close : (lead ++ part.text () ++ (trail ++ text () (last :: later))).keys =
    part.keys ++ keys (last :: later) := by
  let back : Part Unit := ⟨trail, htrail, last :: later⟩
  have hopens : back.Opens := .inr fun cell hcell => Option.some.inj hcell ▸ hlast
  have hwhole := Part.legible_append hpart hback (.inr hopens)
  have hkeys := map_key_tokens_text hwhole ()
    (hlead.append (filler_of_blank (part ++ back).blank).heading)
  have htext : lead ++ part.text () ++ (trail ++ text () (last :: later)) =
      lead ++ (part ++ back).lead ++ text () (part ++ back).row := by
    rw [List.append_assoc, List.append_assoc lead (part ++ back).lead]
    exact congrArg (lead ++ ·) (Part.text_append () part back).symm
  rw [htext]
  exact hkeys.trans (Part.keys_append part back)

variable (hfront : Legible (front ++ [by_]))

include hfront

/-- The tokens of a list that stays apart from the word before it. -/
theorem keys_apart (hseam : by_.gap () ++ part.lead ≠ [] ∨
      ∀ cell ∈ part.row.head?, Apart by_.lexeme.text cell.lexeme.text) :
    (lead ++ text () (front ++ [by_]) ++ part.text () ++
      (trail ++ text () (last :: later))).keys =
    keys front ++ (by_.lexeme.keys ++ (part.keys ++ keys (last :: later))) := by
  have hrow := legible_behind hfront hpart (hseam.imp_left fun h _ => h)
  have hkeys := keys_close hlead htrail hback hlast hrow
  rw [Part.text_append, Part.text_ofRow, ← List.append_assoc lead] at hkeys
  rw [hkeys, Part.keys_append, Part.keys_ofRow, keys_append, keys_cons, keys_nil]
  simp

/-- The tokens of a list that runs together with `by`. -/
theorem keys_fused {cell : Cell Unit} {rest : Row Unit} (hgap : by_.gap () = [])
    (hnone : part.lead = []) (hrow : part.row = cell :: rest)
    (hby : by_.lexeme.text.toLowerAscii = "by".toList)
    (hword : cell.lexeme.text.all isWordChar) :
    (lead ++ text () (front ++ [by_]) ++ part.text () ++
      (trail ++ text () (last :: later))).keys =
    keys front ++ (by_.lexeme.text ++ cell.lexeme.text, false) ::
      (keys rest ++ keys (last :: later)) := by
  have hlegible := legible_behindBy hfront hpart hrow hby hword
  have hkeys := keys_close hlead htrail hback hlast
    (show Legible (Part.ofRow (front ++ cell.behindBy hby hword :: rest)).row from hlegible)
  have htext : lead ++ (Part.ofRow (front ++ cell.behindBy hby hword :: rest)).text () =
      lead ++ text () (front ++ [by_]) ++ part.text () := by
    have hglued : (cell.behindBy hby hword).lexeme.text = by_.lexeme.text ++ cell.lexeme.text := rfl
    have hgluedGap : (cell.behindBy hby hword).gap = cell.gap := rfl
    simp [Part.text, hnone, hrow, hgap, hglued, hgluedGap, Part.ofRow]
  rw [htext] at hkeys
  rw [hkeys, Part.keys_ofRow, keys_append, keys_cons, keys_of_isLiteral_eq_false rfl]
  simp only [List.append_assoc]
  rfl

end Keys

/-! ## A step -/

open BigQuery.Position (Splice)

namespace Row.Taken.Lists

variable {taken : Taken Unit} {front : Row Unit} {by_ last : Cell Unit}
  (hlists : taken.Lists front by_ last)

include hlists

theorem terminates : last.lexeme.text = [';'] ∨ last.lexeme.text = [')'] := by
  obtain ⟨c, rfl | rfl, hlast, -⟩ := hlists.exists_close
  · exact .inl hlast
  · exact .inr hlast

theorem isBy : by_.lexeme.text.toLowerAscii = "by".toList :=
  (Cell.is_iff.1 hlists.word).2

/-- What stands around the list of a match. -/
def splice (lead : Text) (pre : Row Unit) (trail : Text) (htrail : trail.Blank) : Splice where
  front := lead ++ text () (pre ++ front)
  word := by_.lexeme.text
  gap := by_.gap ()
  trail := trail
  close := last.lexeme.text
  back := last.gap () ++ text () taken.later
  isBy := hlists.isBy
  blank := ⟨(by_.even hlists.isBy).blank (), htrail⟩
  terminates := hlists.terminates

variable {lead : Text} {pre : Row Unit} {trail : Text} (htrail : trail.Blank)

theorem text_splice (list : Text) : (hlists.splice lead pre trail htrail).text list =
    lead ++ text () (pre ++ front ++ [by_]) ++ list ++
      (trail ++ text () (last :: taken.later)) := by
  simp [Splice.text, Splice.upTo, splice]

variable (hlegible : Legible (pre ++ (taken.cells ++ taken.later)))

include hlegible

theorem legible_front : Legible (pre ++ front ++ [by_]) :=
  hlegible.of_isInfix ⟨[], taken.get "r".toList ++ last :: taken.later, by
    rw [hlists.cells]; simp⟩

theorem legible_back : Legible (last :: taken.later) :=
  hlegible.of_isInfix ⟨pre ++ front ++ by_ :: taken.get "r".toList, [], by
    rw [hlists.cells]; simp⟩

variable (hlead : Heading lead)

include hlead

theorem around_splice (middle : List (Text × Bool)) :
    (hlists.splice lead pre trail htrail).around middle =
      keys (pre ++ front) ++ (middle ++ keys (last :: taken.later)) := by
  have hfront : Legible (pre ++ front) := hlegible.of_isInfix ⟨[], by_ ::
    (taken.get "r".toList ++ last :: taken.later), by rw [hlists.cells]; simp⟩
  have hback : Legible taken.later := hlegible.of_isInfix ⟨pre ++ taken.cells, [], by simp⟩
  have hclose : last.lexeme.keys = [(last.lexeme.text, false)] :=
    keys_of_isLiteral_eq_false (hlists.last.elim (fun h => (Cell.is_iff.1 h).1)
      fun h => (Cell.is_iff.1 h).1)
  have hfrontKeys : (lead ++ text () (pre ++ front)).keys = keys (pre ++ front) :=
    map_key_tokens_text hfront () hlead
  have hbackKeys : (last.gap () ++ text () taken.later).keys = keys taken.later :=
    map_key_tokens_text hback () (last.filler ()).heading
  rw [Splice.around, splice, hfrontKeys, hbackKeys, keys_cons, hclose]
  rfl

/-- The tokens of the text with the list in its place. -/
theorem keys_text : (lead ++ text () (pre ++ (taken.cells ++ taken.later))).keys =
    (hlists.splice lead pre trail htrail).around
      ((by_.lexeme.text, false) :: keys (taken.get "r".toList)) := by
  refine (map_key_tokens_text hlegible () hlead).trans ?_
  rw [around_splice hlists htrail hlegible hlead, hlists.cells]
  simp [keys_of_isLiteral_eq_false (Cell.is_iff.1 hlists.word).1]

/-- A list that does not run together with `by` keeps its tokens, and all around it do. -/
theorem keys_text_splice {part : Part Unit} (hpart : Legible part.row)
    (hapart : ¬ (hlists.splice lead pre trail htrail).Fuses (part.text ())) :
    ((hlists.splice lead pre trail htrail).text (part.text ())).keys =
      (hlists.splice lead pre trail htrail).around
        ((by_.lexeme.text, false) :: (part.text ()).keys) := by
  obtain ⟨c, -, hlast, hinert, -⟩ := hlists.exists_close
  have hseam : by_.gap () ++ part.lead ≠ [] ∨
      ∀ cell ∈ part.row.head?, Apart by_.lexeme.text cell.lexeme.text := by
    refine or_iff_not_imp_left.2 fun hnil cell hcell => not_not.1 fun hfused => hapart ?_
    obtain ⟨hgap, hnone⟩ := List.append_eq_nil_iff.1 (not_not.1 hnil)
    obtain ⟨rest, hrow⟩ := List.head?_eq_some_iff.1 hcell
    obtain ⟨d, word, hword⟩ := List.exists_cons_of_ne_nil cell.lexeme.text_ne_nil
    have hall := isWord_of_not_apart hlists.isBy hfused
    rw [hword, List.all_cons, Bool.and_eq_true] at hall
    refine ⟨hgap, ?_⟩
    rw [Part.text, hnone, hrow, List.nil_append, text_cons, hword]
    exact hall.1
  rw [text_splice, around_splice hlists htrail hlegible hlead, keys_apart hlead htrail
    (hlists.legible_back hlegible) (by rw [hlast]; exact hinert) hpart
    (hlists.legible_front hlegible) hseam, Part.keys_text () hpart,
    keys_of_isLiteral_eq_false (Cell.is_iff.1 hlists.word).1]
  rfl

/-- The first word of a list that runs together with `by` becomes one token with it. -/
theorem keys_text_splice_of_fuses {part : Part Unit} (hpart : Legible part.row)
    (hfuses : (hlists.splice lead pre trail htrail).Fuses (part.text ())) :
    ∃ first others, (part.text ()).keys = (first, false) :: others ∧
      ((hlists.splice lead pre trail htrail).text (part.text ())).keys =
        (hlists.splice lead pre trail htrail).around
          ((by_.lexeme.text ++ first, false) :: others) := by
  obtain ⟨c, -, hlast, hinert, -⟩ := hlists.exists_close
  obtain ⟨hgap, hhead⟩ := hfuses
  have hnone : part.lead = [] := by
    rcases hlead' : part.lead with _ | ⟨d, blanks⟩
    · rfl
    · have hblank := part.blank
      rw [hlead', Text.Blank, List.forall_mem_cons] at hblank
      rw [Part.text, hlead'] at hhead
      exact absurd ((isWordChar_of_isBlank hblank.1).symm.trans hhead) (by decide)
  obtain ⟨cell, rest, hrow⟩ : ∃ cell rest, part.row = cell :: rest := by
    refine List.exists_cons_of_ne_nil fun hnil => ?_
    rw [Part.text, hnone, hnil] at hhead
    exact absurd hhead (by decide)
  obtain ⟨hliteral, hword⟩ : cell.lexeme.isLiteral = false ∧
      cell.lexeme.text.all isWordChar := by
    refine isWord_of_head ?_
    rw [Part.text, hnone, hrow, List.nil_append, text_cons,
      List.head?_append_of_ne_nil _ cell.lexeme.text_ne_nil] at hhead
    exact hhead
  refine ⟨cell.lexeme.text, keys rest, ?_, ?_⟩
  · rw [Part.keys_text () hpart, Part.keys, hrow, keys_cons, keys_of_isLiteral_eq_false hliteral]
    rfl
  · rw [text_splice, around_splice hlists htrail hlegible hlead, keys_fused hlead htrail
      (hlists.legible_back hlegible) (by rw [hlast]; exact hinert) hpart
      (hlists.legible_front hlegible) hgap hnone hrow hlists.isBy hword]
    rfl

omit hlead in
/-- A step takes the list out and puts its conversion in. -/
theorem exists_replaces {kind : ListKind} (hkind : kind = .groupBy ∨ kind = .orderBy) :
    ∃ (trail : Text) (htrail : trail.Blank) (list : Text) (part : Part Unit),
      Legible part.row ∧ list.keys = keys (taken.get "r".toList) ∧
      lead ++ text () (pre ++ (taken.cells ++ taken.later)) =
        (hlists.splice lead pre trail htrail).text list ∧
      (hlists.splice lead pre trail htrail).Replaces kind (taken.report () lead pre) list
        (part.text ()) ∧ reposition kind (lead ++ text () (pre ++ (taken.cells ++ taken.later)))
        (taken.report () lead pre) =
        .ok ((hlists.splice lead pre trail htrail).text (part.text ())) := by
  have hpart : ∀ {row : Row Unit}, row <:+: taken.cells → Legible row := fun h =>
    hlegible.of_isInfix (h.trans (List.infix_append' _ _ _))
  have hlist : Legible (taken.get "r".toList) := by
    refine hpart ⟨front ++ [by_], [last], ?_⟩
    rw [hlists.cells]
    simp
  have hselect := hpart hlists.select.2
  obtain ⟨trail, htrail, htrim⟩ := Text.exists_append_trimEnd (text () (taken.get "r".toList))
  obtain ⟨parts, hparts, hconverted⟩ := exists_converted kind
    ⟨hselect.trimEnd, hlists.select.1.trimEnd⟩ ⟨hlist, hlists.list⟩
  have hparse := parse_text .select () hselect.trimEnd hlists.select.1.trimEnd
  rw [← Taken.capture_report () lead pre taken "s"] at hparse
  refine ⟨trail, htrail, (text () (taken.get "r".toList)).trimEnd,
    (Listing.ofRow kind (taken.get "r".toList)).relisted parts,
    legible_references hkind ⟨hlist, hlists.list⟩ hparts, ?_, ?_, ⟨?_, ?_, _, hparse, ?_⟩, ?_⟩
  · rw [← text_trimEnd, ← keys_trimEnd]
    exact map_key_tokens_text hlist.trimEnd () .nil
  · rw [text_splice, List.append_assoc _ (Text.trimEnd _), ← List.append_assoc (Text.trimEnd _),
      ← htrim, hlists.cells]
    simp
  · have hsize := congrArg Text.byteSize htrim
    rw [Text.byteSize_append] at hsize
    simp only [Taken.report, hlists.body, Splice.upTo, splice, text_append, text_cons, text_nil,
      Text.byteSize_append, hsize, List.append_nil]
    omega
  · exact (get?_report () lead 0 ⟨[], taken⟩ _).trans htrim
  · exact htrim ▸ hconverted ()
  · rw [reposition_report () lead hselect hlists (hconverted ()) htrim, text_splice]
    simp

end Row.Taken.Lists

end Layout

namespace BigQuery.Position

/-- Each pass is on lists behind `by`, in statements that start with `select`. -/
theorem passes_lists {pattern : Pattern} {kind : ListKind} (h : (pattern, kind) ∈ passes) :
    (kind = .groupBy ∨ kind = .orderBy) ∧
    (∃ blocks, pattern.blocks = .literal "select".toList :: blocks) ∧
    (∀ block ∈ pattern.blocks, block.Simple) ∧
    ∀ taken : Taken Unit, Takes pattern.blocks taken.cells taken.captures →
      ∃ front by_ last, taken.Lists front by_ last := by
  simp only [passes, List.mem_cons, List.not_mem_nil, or_false, Prod.mk.injEq] at h
  obtain ⟨rfl, rfl⟩ | ⟨rfl, rfl⟩ | ⟨rfl, rfl⟩ := h
  · refine ⟨.inl rfl, ⟨_, blocks_groupByPattern⟩, by decide, fun taken htakes => ?_⟩
    exact exists_lists_grouped (.inl rfl) (blocks_groupByPattern ▸ htakes)
  · refine ⟨.inl rfl, ⟨_, blocks_nestedGroupByPattern⟩, by decide, fun taken htakes => ?_⟩
    exact exists_lists_grouped (.inr rfl) (blocks_nestedGroupByPattern ▸ htakes)
  · refine ⟨.inr rfl, ⟨_, blocks_orderByPattern⟩, by decide, fun taken htakes => ?_⟩
    exact exists_lists_ordered (blocks_orderByPattern ▸ htakes)

/-- In a text without comments each step replaces one list, and all tokens around it stay, unless
the new list runs together with `by`. When all lists are converted, the last character is the `;`
that was put there. -/
theorem keys_convert {sql : Text} {run : List Token} (hstrict : tokenize sql = .ok run)
    (hfree : Uncommented sql) {pattern : Pattern} {kind : ListKind}
    (hpass : (pattern, kind) ∈ passes) :
    (∃ out, Progress.run (step pattern kind) (sql ++ [';']) = .ok (out ++ [';']) ∧
      convert pattern kind sql = .ok out) ∧
    ∀ state next, Progress.Reaches (step pattern kind) (sql ++ [';']) state →
      step pattern kind state = .ok (some next) →
      ∃ (found : PatternMatch) (splice : Splice) (list inserted : Text),
        findClause state.sql pattern state.first = .ok (some found) ∧
        splice.Replaces kind found list inserted ∧
        state.sql = splice.text list ∧ next.sql = splice.text inserted ∧
        state.sql.keys = splice.around ((splice.word, false) :: list.keys) ∧
        (next.sql.keys = splice.around ((splice.word, false) :: inserted.keys) ↔
          ¬ splice.Fuses inserted) ∧
        (splice.Fuses inserted → ∃ first others, inserted.keys = (first, false) :: others ∧
          next.sql.keys = splice.around ((splice.word ++ first, false) :: others)) := by
  obtain ⟨hkind, ⟨blocks, hblocks⟩, hsimple, hlists⟩ := passes_lists hpass
  obtain ⟨lead, row, hblank, hlegible, rfl⟩ := hfree.exists_row hstrict
  have hlead : ∀ _ : Unit, Heading lead := fun _ => (filler_of_blank hblank).heading
  refine ⟨?_, fun state next hreach hnext => ?_⟩
  · obtain ⟨row', -, -, hrun⟩ :=
      exists_run_convert hkind hblocks hsimple hlists hlead hlegible (.inr inferInstance)
    refine ⟨_, hrun (), ?_⟩
    rw [convert, hrun (), ok_bind, List.dropLast_concat]
    rfl
  · rw [List.append_assoc, ← text_semicolon] at hreach
    obtain ⟨pre, taken, hrow, htakes, hstate, hfind, hdone⟩ := exists_rewrite hblocks hsimple _
      (step_reposition pattern kind) hlead (fun pre taken hlegible hdollar htakes => by
        obtain ⟨front, by_, last, htaken⟩ := hlists taken htakes
        exact exists_reposition hkind _ pre taken hlegible hdollar htaken) hlegible.semicolon
      (.inr inferInstance) hreach hnext
    obtain ⟨front, by_, last, htaken⟩ := hlists taken htakes
    obtain ⟨trail, htrail, list, part, hpart, hlist, hold, hreplaces, hnew⟩ :=
      htaken.exists_replaces hrow hkind
    rw [hstate] at hdone
    have htext : next.sql = _ := Except.ok.inj (hdone.symm.trans hnew)
    have hfuses := htaken.keys_text_splice_of_fuses htrail hrow (hlead ()) hpart
    rw [← htext] at hfuses
    refine ⟨_, _, list, _, hfind, hreplaces, hstate.trans hold, htext, ?_, ⟨?_, ?_⟩, hfuses⟩
    · rw [hstate, hlist]
      exact htaken.keys_text htrail hrow (hlead ())
    · rintro heq hfused
      obtain ⟨first, others, hfirst, hkeys⟩ := hfuses hfused
      have hlength := Splice.length_eq_of_around (hkeys.symm.trans heq)
      rw [hfirst] at hlength
      simp at hlength
    · rw [htext]
      exact htaken.keys_text_splice htrail hrow (hlead ()) hpart

theorem keys_convert_first :
    Uncommented "SELECT a + b FROM t GROUP BY a + b".toList ∧
      (groupByPattern, ListKind.groupBy) ∈ passes ∧
      ∃ (splice : Splice) (list inserted : Text),
        splice.text list = "SELECT a + b FROM t GROUP BY a + b;".toList ∧
        splice.text inserted = "SELECT a + b FROM t GROUP BY 1;".toList ∧
        (Text.keys "SELECT a + b FROM t GROUP BY 1;".toList =
            splice.around ((splice.word, false) :: inserted.keys) ↔ ¬ splice.Fuses inserted) := by
  have hfree : Uncommented "SELECT a + b FROM t GROUP BY a + b".toList := by decide +kernel
  have hpass : (groupByPattern, ListKind.groupBy) ∈ passes := List.mem_cons_self
  refine ⟨hfree, hpass, ?_⟩
  obtain ⟨-, splice, list, inserted, -, -, hold, hnew, -, htokens, -⟩ :=
    (keys_convert (tokenize_of_foldl (by decide +kernel)) hfree hpass).2
      ⟨"SELECT a + b FROM t GROUP BY a + b;".toList, 0⟩
      ⟨"SELECT a + b FROM t GROUP BY 1;".toList, 1⟩ .refl (by decide +kernel)
  exact ⟨splice, list, inserted, hold.symm, hnew.symm, htokens⟩

/-- With no blank behind it, the word `by` is lost. -/
theorem keys_convert_fused :
    step groupByPattern .groupBy ⟨"select (a) from t group by(a);".toList, 0⟩ =
        .ok (some ⟨"select (a) from t group by1;".toList, 1⟩) ∧
      ("by".toList, false) ∈ Text.keys "select (a) from t group by(a);".toList ∧
      ("by".toList, false) ∉ Text.keys "select (a) from t group by1;".toList := by
  decide +kernel

end BigQuery.Position

end SqlScript
