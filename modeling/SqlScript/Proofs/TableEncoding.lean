import SqlScript.Proofs.Cutting
import SqlScript.Proofs.Slice
import SqlScript.Proofs.SortedTexts
import SqlScript.Rule.Table

/-!
# Writing rule tables

A table is written as a header line and a line for each rule, with every column between double
quotes (`RuleTable.encode`). A quote in a column becomes `\"` and a line break `\n`; there is no
code for a backslash, so a backslash must not be mistaken for the start of one
(`RuleTable.isPlain`).

A line is first divided at its commas, while the codes still stand in it, and its columns are
decoded later, one code after the other. The division finds the columns as they were written
(`RuleTable.rawColumns_encodeColumn`), and taking out the codes one by one undoes putting them in
(`RuleTable.replaceAll_flatMap_written`). The rules of a dialect are kept in the order in which they
come, and the dialects in the order of their names (`RuleTable.rulesFor?_add`,
`RuleTable.pairwise_add`). So reading undoes writing (`RuleTable.parse_encode`).
-/

namespace SqlScript

open List

namespace RuleTable

/-! ## The written form -/

/-- A rule and the dialect it is for. -/
structure Entry where
  dialect : Text
  rule : Rule

/-- The character as it is written, when some characters are written as a backslash and a code. -/
def written (codes : List (Char × Char)) (c : Char) : Text :=
  match codes.lookup c with
  | some code => ['\\', code]
  | none => [c]

/-- The codes for a quote and a line break. -/
def codes : List (Char × Char) :=
  [('"', '"'), ('\n', 'n')]

/-- A column between double quotes. -/
def encodeColumn (t : Text) : Text :=
  '"' :: (t.flatMap (written codes) ++ ['"'])

/-- The line of a rule. -/
def Entry.encode (entry : Entry) : Text :=
  encodeColumn entry.dialect ++ ',' :: (encodeColumn entry.rule.search ++
    ',' :: encodeColumn entry.rule.replace)

/-- A header line and a line for each rule. -/
def encode (header : Text) (entries : List Entry) : Text :=
  header ++ '\n' :: entries.flatMap fun entry => entry.encode ++ ['\n']

/-- The characters of codes. -/
def reserved : List Char :=
  ['\\', 'n', '"', '\n']

/-- Whether every backslash is followed by a character that makes no code with it : neither a
backslash, an `n`, a quote nor a line break. -/
def isPlain : Text → Bool
  | [] => true
  | c :: t => (c != '\\' || t.head?.any fun d => !reserved.contains d) && isPlain t

/-- The columns can be written, and the search pattern is not blank. -/
structure Entry.Writable (entry : Entry) : Prop where
  dialect : isPlain entry.dialect = true
  search : isPlain entry.rule.search = true
  replace : isPlain entry.rule.replace = true
  nonblank : entry.rule.search.trim ≠ []

/-- The rules of a dialect, in order. -/
def rulesOf (dialect : Text) (entries : List Entry) : List Rule :=
  (entries.filter fun entry => entry.dialect == dialect).map Entry.rule

/-! ## Codes -/

theorem replaceAll_cons_cons (a b : Char) (new t : Text) :
    Text.replaceAll (a :: b :: t) [a, b] new = new ++ Text.replaceAll t [a, b] new := by
  have hstrip : Text.strip? (a :: b :: t) [a, b] = some t := Text.strip?_append [a, b] t
  rw [Text.replaceAll, hstrip]
  simp only [length_cons]
  rw [if_pos (by omega)]

variable {t : Text} {table : RuleTable}

theorem replaceAll_cons_of_ne {a b c : Char} (h : c = a → t.head? ≠ some b)
    (new : Text) : Text.replaceAll (c :: t) [a, b] new = c :: Text.replaceAll t [a, b] new := by
  have hstrip : Text.strip? (c :: t) [a, b] = none := by
    cases hstrip : Text.strip? (c :: t) [a, b] with
    | none => rfl
    | some rest =>
      obtain ⟨rfl, rfl⟩ := List.cons.inj (Text.append_of_strip? hstrip)
      exact absurd rfl (h rfl)
  rw [Text.replaceAll, hstrip]

theorem isPlain_backslash (h : isPlain ('\\' :: t)) : ∃ d later, t = d :: later ∧ d ∉ reserved := by
  cases t with
  | nil => simp [isPlain] at h
  | cons d later =>
    refine ⟨d, later, rfl, ?_⟩
    rw [isPlain, Bool.and_eq_true] at h
    simpa using h.1

theorem isPlain_tail {c : Char} (h : isPlain (c :: t)) : isPlain t := by
  rw [isPlain, Bool.and_eq_true] at h
  exact h.2

/-- A code is written with reserved characters, and a backslash is none by itself. -/
def Coded (code : Char × Char) : Prop :=
  (code.1 ∈ reserved ∧ code.1 ≠ '\\') ∧ code.2 ∈ reserved ∧ code.2 ≠ '\\'

theorem written_of_notMem {codes : List (Char × Char)} (h : ∀ code ∈ codes, Coded code) {c : Char}
    (hc : c ∉ reserved ∨ c = '\\') : written codes c = [c] := by
  have hnone : codes.lookup c = none := by
    rw [lookup_eq_none_iff]
    intro code hmem
    have hcode := (h code hmem).1
    rw [bne_iff_ne]
    rintro rfl
    exact hc.elim (fun hc => hc hcode.1) fun hc => hcode.2 hc
  rw [written, hnone]

/-- Taking out one code leaves the others. -/
theorem replaceAll_flatMap_written (x y : Char) (others : List (Char × Char))
    (hcoded : ∀ code ∈ (x, y) :: others, Coded code)
    (hfresh : ∀ code ∈ others, code.1 ≠ x ∧ code.2 ≠ y) (h : isPlain t) :
    Text.replaceAll (t.flatMap (written ((x, y) :: others))) ['\\', y] [x] =
      t.flatMap (written others) := by
  induction t with
  | nil => rw [flatMap_nil, Text.replaceAll]; rfl
  | cons c t ih =>
    have ih := ih (isPlain_tail h)
    obtain ⟨⟨hx, -⟩, hothers⟩ := forall_mem_cons.1 hcoded
    rw [flatMap_cons, flatMap_cons]
    by_cases hcx : c = x
    · subst hcx
      have hnone : others.lookup c = none := lookup_eq_none_iff.2 fun code hmem =>
        bne_iff_ne.2 (hfresh code hmem).1.symm
      simp only [written, lookup_cons_self, hnone]
      rw [cons_append, singleton_append, replaceAll_cons_cons, ih]
    · have hlookup : ((x, y) :: others).lookup c = others.lookup c := by
        rw [lookup_cons, beq_false_of_ne hcx]
      cases hcode : others.lookup c with
      | some code =>
        obtain ⟨before, after, hmem, -⟩ := lookup_eq_some_iff.1 hcode
        have hmem : (c, code) ∈ others := by simp [hmem]
        have hne := (hfresh _ hmem).2
        simp only [written, hlookup, hcode, cons_append, nil_append]
        rw [replaceAll_cons_of_ne (by simpa using hne),
          replaceAll_cons_of_ne fun heq => absurd heq (hothers _ hmem).2.2, ih]
      | none =>
        simp only [written, hlookup, hcode, singleton_append]
        rw [replaceAll_cons_of_ne, ih]
        -- behind a backslash stands a character that is written as itself
        rintro rfl
        obtain ⟨d, later, rfl, hd⟩ := isPlain_backslash h
        rw [flatMap_cons, written_of_notMem hcoded (.inl hd), singleton_append,
          head?_cons, ne_eq, Option.some.injEq]
        rintro rfl
        exact hd (hcoded _ mem_cons_self).2.1

theorem decodeColumn_encodeColumn (h : isPlain t) : decodeColumn (encodeColumn t) = t := by
  have hquote := replaceAll_flatMap_written '"' '"' [('\n', 'n')]
    (by simp [Coded, reserved]) (by simp) h
  have hbreak := replaceAll_flatMap_written '\n' 'n' []
    (by simp [Coded, reserved]) (by simp) h
  have hnone : t.flatMap (written []) = t := by
    have hwritten : written [] = fun c => [c] := rfl
    rw [hwritten, flatMap_singleton']
  have hinner : decodeColumn (encodeColumn t) =
      Text.replaceAll (Text.replaceAll (t.flatMap (written codes)) ['\\', '"'] ['"']) ['\\', 'n']
        ['\n'] := by
    simp [decodeColumn, encodeColumn]
  rw [hinner]
  exact (congrArg (Text.replaceAll · ['\\', 'n'] ['\n']) hquote).trans (hbreak.trans hnone)

/-! ## Columns -/

theorem rawColumns_ne_nil (inQuotes escaped : Bool) (t : Text) :
    rawColumns inQuotes escaped t ≠ [] := by
  cases t with
  | nil => simp [rawColumns]
  | cons c t =>
    rw [rawColumns]
    generalize (if c == '"' && !escaped then !inQuotes else inQuotes) = inQuotes'
    split
    · exact cons_ne_nil _ _
    · cases rawColumns inQuotes' (c == '\\' && !escaped) t <;> exact cons_ne_nil _ _

/-- Between quotes, a character that does not close them is put before what follows. -/
theorem rawColumns_inside {c : Char} {escaped : Bool} (h : c = '"' → escaped) (next : Bool)
    (hnext : (c == '\\' && !escaped) = next) (t : Text) :
    rawColumns true escaped (c :: t) = (rawColumns true next t).modifyHead (c :: ·) := by
  have hquote : (c == '"' && !escaped) = false := by
    by_cases hc : c = '"'
    · simp [h hc]
    · simp [hc]
  obtain ⟨column, columns, hcolumns⟩ :=
    exists_cons_of_ne_nil (rawColumns_ne_nil true next t)
  simp [rawColumns, hquote, hnext, hcolumns]

/-- The written form of a text between quotes is not divided. After a backslash of the text comes a
character that is written as itself, so no code is read there. -/
theorem rawColumns_flatMap_written (h : isPlain t) (escaped : Bool)
    (hescaped : escaped → ∃ d later, t = d :: later ∧ d ∉ reserved) (rest : Text) :
    rawColumns true escaped (t.flatMap (written codes) ++ rest) =
      (rawColumns true false rest).modifyHead (t.flatMap (written codes) ++ ·) := by
  have hcoded : ∀ code ∈ codes, Coded code := by simp [codes, Coded, reserved]
  induction t generalizing escaped with
  | nil =>
    obtain rfl : escaped = false := by
      cases escaped with
      | false => rfl
      | true =>
        obtain ⟨d, later, hnil, -⟩ := hescaped rfl
        exact absurd hnil (by simp)
    obtain ⟨column, columns, hcolumns⟩ :=
      exists_cons_of_ne_nil (rawColumns_ne_nil true false rest)
    simp [hcolumns]
  | cons c t ih =>
    have hfree : escaped → c ∉ reserved := by
      intro hescape
      obtain ⟨d, later, hcons, hd⟩ := hescaped hescape
      rwa [(List.cons.inj hcons).1]
    rw [flatMap_cons, append_assoc]
    cases hcode : codes.lookup c with
    | some code =>
      obtain ⟨before, after, hmem, -⟩ := lookup_eq_some_iff.1 hcode
      have hmem : (c, code) ∈ codes := by simp [hmem]
      obtain ⟨⟨hc, -⟩, -, hbackslash⟩ := hcoded _ hmem
      obtain rfl : escaped = false := by
        rw [Bool.eq_false_iff]
        exact fun hescape => hfree hescape hc
      simp only [written, hcode, cons_append, nil_append]
      rw [rawColumns_inside (by simp) true (by simp),
        rawColumns_inside (fun _ => rfl) false (by simp), ih (isPlain_tail h) false (by simp)]
      simp only [modifyHead_modifyHead]
      rfl
    | none =>
      have hquote : c ≠ '"' := by
        rintro rfl
        simp [codes] at hcode
      simp only [written, hcode, singleton_append]
      have hnext : (c == '\\' && !escaped) → ∃ d later, t = d :: later ∧ d ∉ reserved := by
        intro hnext
        obtain rfl : c = '\\' := by simpa using (Bool.and_eq_true_iff.1 hnext).1
        exact isPlain_backslash h
      rw [rawColumns_inside (fun heq => absurd heq hquote) _ rfl, ih (isPlain_tail h) _ hnext]
      simp only [modifyHead_modifyHead]
      rfl

/-- A written column runs up to the comma behind it. -/
theorem rawColumns_encodeColumn (h : isPlain t) (rest : Text) :
    rawColumns false false (encodeColumn t ++ ',' :: rest) =
      encodeColumn t :: rawColumns false false rest := by
  have hinside := rawColumns_flatMap_written h false (by simp) ('"' :: ',' :: rest)
  have hclose : rawColumns true false ('"' :: ',' :: rest) =
      ['"'] :: rawColumns false false rest := by
    simp [rawColumns]
  rw [hclose] at hinside
  simp [encodeColumn, rawColumns, hinside]

theorem rawColumns_encodeColumn_last (h : isPlain t) :
    rawColumns false false (encodeColumn t) = [encodeColumn t] := by
  have hinside := rawColumns_flatMap_written h false (by simp) ['"']
  have hclose : rawColumns true false ['"'] = [['"']] := by simp [rawColumns]
  rw [hclose] at hinside
  simp [encodeColumn, rawColumns, hinside]

theorem columns_encode {entry : Entry} (h : entry.Writable) :
    columns entry.encode = [entry.dialect, entry.rule.search, entry.rule.replace] := by
  rw [columns, Entry.encode, rawColumns_encodeColumn h.dialect, rawColumns_encodeColumn h.search,
    rawColumns_encodeColumn_last h.replace]
  simp only [map_cons, map_nil, decodeColumn_encodeColumn h.dialect,
    decodeColumn_encodeColumn h.search, decodeColumn_encodeColumn h.replace]

/-! ## Lines -/

theorem notMem_encodeColumn (t : Text) : '\n' ∉ encodeColumn t := by
  have hwritten : ∀ c ∈ t, '\n' ∉ written codes c := by
    intro c _ hmem
    simp only [written, codes, lookup_cons, lookup_nil] at hmem
    by_cases hquote : c = '"'
    · simp [hquote] at hmem
    · by_cases hbreak : c = '\n'
      · simp [hbreak] at hmem
      · simp [Ne.symm hbreak, beq_false_of_ne hquote, beq_false_of_ne hbreak] at hmem
  simpa [encodeColumn] using hwritten

theorem Entry.notMem_encode (entry : Entry) : '\n' ∉ entry.encode := by
  simp [Entry.encode, notMem_encodeColumn]

theorem fields_flatMap_encode (entries : List Entry) :
    Text.fields '\n' (entries.flatMap fun entry => entry.encode ++ ['\n']) =
      entries.map Entry.encode ++ [[]] := by
  induction entries with
  | nil => rfl
  | cons entry entries ih =>
    rw [flatMap_cons, append_assoc, singleton_append,
      Text.fields_append_cons entry.notMem_encode, ih]
    rfl

/-- A written line ends with a quote, so it loses nothing at its end. -/
theorem Entry.exists_encode_eq (entry : Entry) :
    ∃ inside, entry.encode = '"' :: (inside ++ ['"']) :=
  ⟨entry.dialect.flatMap (written codes) ++ '"' :: ',' :: (encodeColumn entry.rule.search ++
    ',' :: '"' :: entry.rule.replace.flatMap (written codes)), by simp [Entry.encode, encodeColumn]⟩

theorem tail_lines_encode {header : Text} (h : '\n' ∉ header) (entries : List Entry) :
    (lines (encode header entries)).tail = entries.map Entry.encode := by
  have hfields : Text.fields '\n' (encode header entries) =
      header :: entries.map Entry.encode ++ [[]] := by
    rw [encode, Text.fields_append_cons h, fields_flatMap_encode]
    rfl
  have hlast : (header :: entries.map Entry.encode ++ [[]]).getLast? = some [] :=
    getLast?_concat
  rw [lines, hfields, hlast]
  simp only [beq_self_eq_true, if_true, dropLast_concat, map_cons, tail_cons, map_map]
  refine map_congr_left fun entry _ => ?_
  obtain ⟨inside, hencode⟩ := entry.exists_encode_eq
  simp [hencode]

theorem addLine_encode {entry : Entry} (h : entry.Writable) (table : RuleTable) (number : Nat) :
    table.addLine entry.encode number = .ok (table.add entry.dialect entry.rule) := by
  have hline : entry.encode.trim.isEmpty = false := by
    obtain ⟨inside, hencode⟩ := entry.exists_encode_eq
    have hsolid : Text.Solid (['"'] ++ (inside ++ ['"'])) :=
      (Text.solid_singleton (by decide)).append_append (Text.solid_singleton (by decide)) inside
    have htrim : entry.encode.trim = '"' :: (inside ++ ['"']) := by
      rw [hencode]
      exact hsolid.trim
    rw [htrim]
    rfl
  have hsearch : entry.rule.search.trim.isEmpty = false := by
    rw [isEmpty_eq_false_iff]
    exact h.nonblank
  rw [addLine, hline, columns_encode h]
  simp [hsearch]

/-- The rules of the entries, put into a table one after another. -/
def addAll (table : RuleTable) (entries : List Entry) : RuleTable :=
  entries.foldl (fun table entry => table.add entry.dialect entry.rule) table

theorem foldlM_addLine {entries : List Entry} (h : ∀ entry ∈ entries, entry.Writable)
    (number : Nat) (table : RuleTable) : ((entries.map Entry.encode).zipIdx number).foldlM
      (fun table line => table.addLine line.1 line.2) table = .ok (addAll table entries) := by
  induction entries generalizing number table with
  | nil => rfl
  | cons entry entries ih =>
    rw [forall_mem_cons] at h
    rw [map_cons, zipIdx_cons, foldlM_cons, addLine_encode h.1, ok_bind, ih h.2]
    rfl

theorem parse_encode_eq {header : Text} (hheader : '\n' ∉ header) {entries : List Entry}
    (h : ∀ entry ∈ entries, entry.Writable) :
    parse (encode header entries) = .ok (addAll [] entries) := by
  have hlines : ((lines (encode header entries)).zipIdx 1).tail =
      (entries.map Entry.encode).zipIdx 2 := by
    rw [← tail_lines_encode hheader]
    cases lines (encode header entries) <;> rfl
  rw [parse, hlines]
  exact foldlM_addLine h 2 []

/-! ## Tables -/

/-- A dialect is put in its place, if it is not there. -/
theorem dialects_add (dialect : Text) (rule : Rule) (table : RuleTable) :
    (table.add dialect rule).dialects = Text.insertSorted dialect table.dialects := by
  induction table with
  | nil => rfl
  | cons entry table ih =>
    obtain ⟨other, rules⟩ := entry
    simp only [dialects, add, map_cons, Text.insertSorted] at ih ⊢
    split
    · rename_i hsame
      rw [eq_of_beq hsame, if_neg (by simp [Text.precedes_iff_lt]), map_cons]
    · split
      · rfl
      · rw [map_cons, ih]

theorem mem_dialects_add (dialect : Text) (rule : Rule) (table : RuleTable) (d : Text) :
    d ∈ (table.add dialect rule).dialects ↔ d = dialect ∨ d ∈ table.dialects := by
  rw [dialects_add, Text.mem_insertSorted]

/-- The dialects stay in order. -/
theorem pairwise_add (h : table.dialects.Pairwise (· < ·)) (dialect : Text)
    (rule : Rule) : (table.add dialect rule).dialects.Pairwise (· < ·) :=
  dialects_add dialect rule table ▸ Text.pairwise_insertSorted h

theorem rulesFor?_cons (other : Text) (rules : List Rule) (table : RuleTable) (d : Text) :
    rulesFor? ((other, rules) :: table) d =
      if d = other then some rules else table.rulesFor? d := by
  rw [rulesFor?, lookup_cons]
  by_cases hd : d = other
  · simp [hd]
  · rw [beq_false_of_ne hd, if_neg hd]
    rfl

theorem rulesFor?_eq_none {d : Text} (h : ∀ other ∈ table.dialects, d < other) :
    table.rulesFor? d = none := by
  rw [rulesFor?, lookup_eq_none_iff]
  intro entry hmem
  exact bne_iff_ne.2 (h entry.1 (mem_map_of_mem hmem)).ne

/-- A rule is put behind the other rules of its dialect, and the other dialects keep theirs. -/
theorem rulesFor?_add (h : table.dialects.Pairwise (· < ·)) (dialect : Text) (rule : Rule)
    (d : Text) : (table.add dialect rule).rulesFor? d =
      if d = dialect then some ((table.rulesFor? dialect).getD [] ++ [rule])
      else table.rulesFor? d := by
  induction table with
  | nil =>
    rw [add, rulesFor?_cons]
    rfl
  | cons entry table ih =>
    obtain ⟨other, rules⟩ := entry
    have hother := pairwise_cons.1 h
    rw [add]
    split
    · rename_i hsame
      obtain rfl := eq_of_beq hsame
      simp only [rulesFor?_cons, if_true, Option.getD_some]
      split <;> rfl
    · rename_i hne
      have hne : dialect ≠ other := by simpa using hne
      split
      · rename_i hprecedes
        -- the dialect comes before all the others, so it has no rules yet
        have hlt := Text.precedes_iff_lt.1 hprecedes
        have hnone : rulesFor? ((other, rules) :: table) dialect = none :=
          rulesFor?_eq_none (forall_mem_cons.2 ⟨hlt, fun d hd => hlt.trans (hother.1 d hd)⟩)
        rw [hnone, rulesFor?_cons]
        rfl
      · rw [rulesFor?_cons, ih hother.2, rulesFor?_cons, rulesFor?_cons, if_neg hne]
        by_cases hd : d = dialect
        · rw [hd, if_neg hne, if_pos rfl, if_pos rfl]
        · rw [if_neg hd, if_neg hd]

theorem addAll_cons (table : RuleTable) (entry : Entry) (entries : List Entry) :
    addAll table (entry :: entries) = addAll (table.add entry.dialect entry.rule) entries :=
  rfl

theorem pairwise_addAll (h : table.dialects.Pairwise (· < ·))
    (entries : List Entry) : (addAll table entries).dialects.Pairwise (· < ·) := by
  induction entries generalizing table with
  | nil => exact h
  | cons entry entries ih => exact ih (pairwise_add h entry.dialect entry.rule)

theorem mem_dialects_addAll (table : RuleTable) (entries : List Entry) (d : Text) :
    d ∈ (addAll table entries).dialects ↔ d ∈ table.dialects ∨ d ∈ entries.map Entry.dialect := by
  induction entries generalizing table with
  | nil => simp [addAll]
  | cons entry entries ih =>
    rw [addAll_cons, ih, mem_dialects_add, map_cons, mem_cons]
    tauto

/-- The rules of the entries stand behind those that were there. -/
theorem rulesFor?_addAll (h : table.dialects.Pairwise (· < ·)) (entries : List Entry)
    (d : Text) : (addAll table entries).rulesFor? d =
      if rulesOf d entries = [] then table.rulesFor? d
      else some ((table.rulesFor? d).getD [] ++ rulesOf d entries) := by
  induction entries generalizing table with
  | nil => rfl
  | cons entry entries ih =>
    rw [addAll_cons, ih (pairwise_add h _ _), rulesFor?_add h]
    by_cases hd : d = entry.dialect
    · subst hd
      have hrules : rulesOf entry.dialect (entry :: entries) =
          entry.rule :: rulesOf entry.dialect entries := by
        simp [rulesOf]
      simp only [hrules, if_true, reduceCtorEq, if_false]
      split
      · rename_i hnil
        simp [hnil]
      · simp
    · have hrules : rulesOf d (entry :: entries) = rulesOf d entries := by
        simp [rulesOf, Ne.symm hd]
      simp only [hrules, hd, if_false]

/-- Reading undoes writing : a written table can be read, its dialects are those of the rules in the
order of their names, and each dialect has its rules in the order in which they were written. -/
theorem parse_encode (header : Text) (entries : List Entry) (hheader : '\n' ∉ header)
    (hentries : ∀ entry ∈ entries, entry.Writable) : ∃ table,
      parse (encode header entries) = .ok table ∧
      table.dialects.Pairwise (· < ·) ∧
      (∀ d, d ∈ table.dialects ↔ d ∈ entries.map Entry.dialect) ∧
      ∀ d, table.rulesFor? d =
        if rulesOf d entries = [] then none else some (rulesOf d entries) := by
  have hsorted : (dialects []).Pairwise (· < ·) := List.Pairwise.nil
  refine ⟨addAll [] entries, parse_encode_eq hheader hentries, pairwise_addAll hsorted entries,
    fun d => ?_, fun d => ?_⟩
  · rw [mem_dialects_addAll]
    simp [dialects]
  · rw [rulesFor?_addAll hsorted]
    rfl

/-- Two dialects, with a comma, quotes, a line break, a carriage return and a backslash in their
rules. -/
theorem parse_encode_sample : ∃ table,
    parse (encode "target,search,replace".toList
      [⟨"oracle".toList, "GETDATE()".toList, "SYSDATE".toList⟩,
        ⟨"impala".toList, "a, \"b\"".toList, "x\r\ny\\d".toList⟩,
        ⟨"oracle".toList, "@a\\,".toList, []⟩]) = .ok table ∧
      table.dialects.Pairwise (· < ·) ∧
      (∀ d, d ∈ table.dialects ↔ d ∈ ["oracle".toList, "impala".toList, "oracle".toList]) ∧
      table.rulesFor? "oracle".toList =
        some [⟨"GETDATE()".toList, "SYSDATE".toList⟩, ⟨"@a\\,".toList, []⟩] := by
  obtain ⟨table, hparse, hsorted, hdialects, hrules⟩ := parse_encode "target,search,replace".toList
    [⟨"oracle".toList, "GETDATE()".toList, "SYSDATE".toList⟩,
      ⟨"impala".toList, "a, \"b\"".toList, "x\r\ny\\d".toList⟩,
      ⟨"oracle".toList, "@a\\,".toList, []⟩] (by decide)
    (List.forall_mem_cons.2 ⟨⟨by decide, by decide, by decide, by decide⟩,
      List.forall_mem_cons.2 ⟨⟨by decide, by decide, by decide, by decide⟩,
        List.forall_mem_singleton.2 ⟨by decide, by decide, by decide, by decide⟩⟩⟩)
  exact ⟨table, hparse, hsorted, hdialects, (hrules _).trans (by decide)⟩

end RuleTable

end SqlScript
