import SqlScript.Regex.Expr
import SqlScript.Regex.Property

/-!
# Reading regular expressions

`Expr.read?` reads a pattern from left to right with the open groups on a stack. Patterns with
look-around, back references, unbalanced groups, empty or reversed repetitions, unknown escapes or
unknown class names are refused.
-/

namespace SqlScript.Regex

/-! ## Blanks in verbose patterns -/

/-- The pattern without leading blanks and `#` comments, where it is verbose. -/
def skipVerbose (inComment : Bool) : Text → Text
  | [] => []
  | c :: t =>
    if inComment then skipVerbose (c != '\n') t
    else if isBlank c then skipVerbose false t
    else if c == '#' then skipVerbose true t
    else c :: t

/-- The rest of the pattern, after blanks and comments where it is verbose. -/
def skip (verbose : Bool) (t : Text) : Text :=
  if verbose then skipVerbose false t else t

/-! ## Escapes -/

/-- What a single escape or character stands for. -/
inductive Atom where
  | literal (c : Char) (isByte : Bool)
  | assertion (form : AssertionForm)
  | charClass (body : ClassExpr)
deriving DecidableEq, Repr

/-- The value of a hexadecimal digit. -/
def hexValue? (c : Char) : Option Nat :=
  if '0' ≤ c && c ≤ '9' then some (c.toNat - '0'.toNat)
  else if 'a' ≤ c && c ≤ 'f' then some (c.toNat - 'a'.toNat + 10)
  else if 'A' ≤ c && c ≤ 'F' then some (c.toNat - 'A'.toNat + 10)
  else none

/-- The character with the code point, unless that is past the end or a surrogate. -/
def charOfCode? (n : Nat) : Option Char :=
  if n < 0xD800 || (0xDFFF < n && n < 0x110000) then some (Char.ofNat n) else none

/-- Reads exactly `count` hexadecimal digits. -/
def readHexDigits? (verbose : Bool) : Nat → Nat → Text → Option (Nat × Text)
  | 0, value, t => some (value, t)
  | count + 1, value, c :: t => do
    let digit ← hexValue? c
    readHexDigits? verbose count (16 * value + digit) (skip verbose t)
  | _ + 1, _, [] => none

/-- Reads what stands up to the brace that closes an escape. Blanks and comments of a verbose
pattern are left out. -/
def readBraced? (verbose inComment : Bool) : Text → Option (Text × Text)
  | [] => none
  | c :: t =>
    if inComment then readBraced? verbose (c != '\n') t
    else if verbose && isBlank c then readBraced? verbose false t
    else if verbose && c == '#' then readBraced? verbose true t
    else if c == '\x7d' then some ([], t)
    else (readBraced? verbose false t).map fun (body, rest) => (c :: body, rest)

/-- The code point of a number in hexadecimal digits. -/
def hexCode? (digits : Text) : Option Nat :=
  if digits.isEmpty then none
  else digits.foldlM (fun value c => (hexValue? c).map (16 * value + ·)) 0

/-- Reads the code point of `\x`, `\u` or `\U`, given after the letter. -/
def readHex? (verbose : Bool) (letter : Char) (t : Text) : Option (Atom × Text) := do
  match skip verbose t with
  | '\x7b' :: rest =>
    let (digits, rest) ← readBraced? verbose false rest
    let c ← charOfCode? (← hexCode? digits)
    return (.literal c false, skip verbose rest)
  | rest =>
    let count := if letter == 'x' then 2 else if letter == 'u' then 4 else 8
    let (value, rest) ← readHexDigits? verbose count 0 rest
    let c ← charOfCode? value
    return (.literal c (letter == 'x'), skip verbose rest)

/-- Reads the name of a property after `\p` or `\P`. -/
def readProperty? (verbose negated : Bool) (t : Text) : Option (Atom × Text) := do
  match skip verbose t with
  | '\x7b' :: rest =>
    let (name, rest) ← readBraced? verbose false rest
    let (set, differs) ← propertySet? name
    return (.charClass (.property set (negated != differs)), rest)
  | '\\' :: _ => none
  | c :: rest =>
    let (set, differs) ← propertySet? [c]
    return (.charClass (.property set (negated != differs)), skip verbose rest)
  | [] => none

/-- Whether an escaped character stands for itself: all of ASCII but letters, digits and angle
brackets. -/
def isEscapable (c : Char) : Bool :=
  c.toNat < 0x80 && !c.isAlphanum && c != '<' && c != '>'

/-- The special word boundaries by name. -/
def boundaryNamed? (name : Text) : Option Boundary :=
  if name == "start".toList then some .start
  else if name == "end".toList then some .stop
  else if name == "start-half".toList then some .startHalf
  else if name == "end-half".toList then some .stopHalf
  else none

/-- Reads what may follow `\b`: the name of a special boundary in braces. Braces that do not start
like a name belong to a repetition. -/
def readBoundary? (verbose : Bool) (t : Text) : Option (Atom × Text) :=
  let isNameChar (c : Char) := c.isAlpha || c == '-'
  let plain := (Atom.assertion (.boundary .either), t)
  match t with
  | '\x7b' :: rest =>
    match skip verbose rest with
    | [] => none
    | c :: body =>
      if !isNameChar c then some plain
      else do
        let (name, rest) ← readBraced? verbose false (c :: body)
        let kind ← boundaryNamed? name
        return (.assertion (.boundary kind), rest)
  | _ => some plain

/-- The short class of a letter. -/
def shortClass? (c : Char) : Option (ShortClass × Bool) :=
  match c with
  | 'd' => some (.digit, false)
  | 'D' => some (.digit, true)
  | 's' => some (.blank, false)
  | 'S' => some (.blank, true)
  | 'w' => some (.word, false)
  | 'W' => some (.word, true)
  | _ => none

/-- Reads an escape, given after the backslash. -/
def readEscape? (verbose : Bool) : Text → Option (Atom × Text)
  | [] => none
  | c :: t =>
    match shortClass? c with
    | some (kind, negated) => some (.charClass (.short kind negated), t)
    | none =>
      if isEscapable c then some (.literal c false, t)
      else
        match c with
        | 'x' | 'u' | 'U' => readHex? verbose c t
        | 'p' => readProperty? verbose false t
        | 'P' => readProperty? verbose true t
        | 'a' => some (.literal '\x07' false, t)
        | 'f' => some (.literal '\x0C' false, t)
        | 't' => some (.literal '\t' false, t)
        | 'n' => some (.literal '\n' false, t)
        | 'r' => some (.literal '\r' false, t)
        | 'v' => some (.literal '\x0B' false, t)
        | 'A' => some (.assertion .textStart, t)
        | 'z' => some (.assertion .textEnd, t)
        | 'b' => readBoundary? verbose t
        | 'B' => some (.assertion (.boundary .neither), t)
        | '<' => some (.assertion (.boundary .start), t)
        | '>' => some (.assertion (.boundary .stop), t)
        | _ => none

/-! ## Bracketed classes -/

/-- The ASCII classes by name. -/
def asciiClass? (name : Text) : Option (List (Nat × Nat)) :=
  match String.ofList name with
  | "alnum" => some [(0x30, 0x39), (0x41, 0x5A), (0x61, 0x7A)]
  | "alpha" => some [(0x41, 0x5A), (0x61, 0x7A)]
  | "ascii" => some [(0x00, 0x7F)]
  | "blank" => some [(0x09, 0x09), (0x20, 0x20)]
  | "cntrl" => some [(0x00, 0x1F), (0x7F, 0x7F)]
  | "digit" => some [(0x30, 0x39)]
  | "graph" => some [(0x21, 0x7E)]
  | "lower" => some [(0x61, 0x7A)]
  | "print" => some [(0x20, 0x7E)]
  | "punct" => some [(0x21, 0x2F), (0x3A, 0x40), (0x5B, 0x60), (0x7B, 0x7E)]
  | "space" => some [(0x09, 0x0D), (0x20, 0x20)]
  | "upper" => some [(0x41, 0x5A)]
  | "word" => some [(0x30, 0x39), (0x41, 0x5A), (0x5F, 0x5F), (0x61, 0x7A)]
  | "xdigit" => some [(0x30, 0x39), (0x41, 0x46), (0x61, 0x66)]
  | _ => none

/-- Reads an ASCII class such as `[:alpha:]` at the start of the text. -/
def readAsciiClass? (t : Text) : Option (ClassExpr × Text) := do
  let rest ← t.strip? "[:".toList
  let negated := rest.head? == some '^'
  let (name, rest) ← Text.cut? (if negated then rest.drop 1 else rest) [':']
  let rest ← Text.strip? rest [']']
  return (.ascii (← asciiClass? name) negated, rest)

/-- A bracket that is being read: the operator waiting for its right side, and the items so far. -/
structure OpenClass where
  negated : Bool
  waiting : Option (SetOperator × ClassExpr) := none
  items : List ClassExpr := []

namespace OpenClass

/-- The bracket with one more item. -/
def add (frame : OpenClass) (item : ClassExpr) : OpenClass :=
  { frame with items := item :: frame.items }

/-- The union of the items so far. -/
def union (frame : OpenClass) : ClassExpr :=
  match frame.items.reverse with
  | [] => .empty
  | item :: items => items.foldl .union item

/-- The operand made of the items, joined to the operator that waits for it. -/
def operand (frame : OpenClass) : ClassExpr :=
  match frame.waiting with
  | some (operator, left) => .operation operator left frame.union
  | none => frame.union

/-- The bracket after an operator. -/
def operate (frame : OpenClass) (operator : SetOperator) : OpenClass :=
  { frame with waiting := some (operator, frame.operand), items := [] }

/-- The class of a bracket that is closed. -/
def close (frame : OpenClass) : ClassExpr :=
  .bracket frame.negated frame.operand

end OpenClass

/-- Takes dashes at the start of a bracket for themselves. -/
def takeDashes (verbose : Bool) (fuel : Nat) (frame : OpenClass) (t : Text) :
    OpenClass × Text :=
  match fuel, t with
  | fuel + 1, '-' :: rest =>
    takeDashes verbose fuel (frame.add (.range '-' '-')) (skip verbose rest)
  | _, t => (frame, t)

/-- Reads the opening of a bracket, given after `[`: the negation, dashes, and a closing bracket
that stands first. -/
def openClass (verbose : Bool) (t : Text) : OpenClass × Text :=
  let t := skip verbose t
  let (negated, t) :=
    match t with
    | '^' :: rest => (true, skip verbose rest)
    | _ => (false, t)
  let (frame, t) := takeDashes verbose t.length { negated } t
  match frame.items, t with
  | [], ']' :: rest => (frame.add (.range ']' ']'), skip verbose rest)
  | _, _ => (frame, t)

/-- Reads a character or escape of a bracket. -/
def readClassAtom? (verbose : Bool) : Text → Option (Atom × Text)
  | [] => none
  | '\\' :: t => readEscape? verbose t
  | c :: t => some (.literal c false, t)

/-- The class item of an atom, unless that is an assertion. -/
def Atom.toClassItem? : Atom → Option ClassExpr
  | literal c _ => some (.range c c)
  | charClass body => some body
  | assertion _ => none

/-- The character that decides whether a dash before the text makes a range. In a verbose pattern it
is the first one after blanks and after the `#` of one comment, blanks skipped there too. -/
def afterDash? (verbose : Bool) (t : Text) : Option Char :=
  if !verbose then t.head?
  else
    match t.trimStart with
    | '#' :: rest => (Text.trimStart rest).head?
    | rest => rest.head?

/-- Reads a character, class or range of a bracket. -/
def readClassItem? (verbose : Bool) (t : Text) : Option (ClassExpr × Text) := do
  let (first, rest) ← readClassAtom? verbose t
  let rest := skip verbose rest
  match rest with
  | [] => none
  | '-' :: after =>
    let next := afterDash? verbose after
    if next == some ']' || next == some '-' then return (← first.toClassItem?, rest)
    else
      let (second, rest) ← readClassAtom? verbose (skip verbose after)
      match first, second with
      | .literal lo _, .literal hi _ => if lo ≤ hi then return (.range lo hi, rest) else none
      | _, _ => none
  | _ => return (← first.toClassItem?, rest)

/-- What one step through the brackets leads to. -/
inductive ClassStep where
  /-- The outermost bracket is closed. -/
  | closed (body : ClassExpr) (rest : Text)
  /-- The brackets around the current one, the innermost first, and the current one. -/
  | within (outer : List OpenClass) (frame : OpenClass) (rest : Text)

/-- Reads one item, operator or delimiter of a bracket. -/
def classStep? (verbose : Bool) (outer : List OpenClass) (frame : OpenClass) (t : Text) :
    Option ClassStep :=
  match skip verbose t with
  | [] => none
  | '[' :: rest =>
    match readAsciiClass? ('[' :: rest) with
    | some (item, rest) => some (.within outer (frame.add item) rest)
    | none =>
      let (inner, rest) := openClass verbose rest
      some (.within (frame :: outer) inner rest)
  | ']' :: rest =>
    match outer with
    | [] => some (.closed frame.close rest)
    | around :: outer => some (.within outer (around.add frame.close) rest)
  | '&' :: '&' :: rest => some (.within outer (frame.operate .inter) rest)
  | '-' :: '-' :: rest => some (.within outer (frame.operate .diff) rest)
  | '~' :: '~' :: rest => some (.within outer (frame.operate .symmDiff) rest)
  | t => (readClassItem? verbose t).map fun (item, rest) => .within outer (frame.add item) rest

/-- Reads brackets up to the closing of the outermost one. -/
def readClassFrom? (verbose : Bool) (outer : List OpenClass) (frame : OpenClass) (t : Text) :
    Option (ClassExpr × Text) :=
  match classStep? verbose outer frame t with
  | some (.closed body rest) => some (body, rest)
  | some (.within outer frame rest) =>
    if rest.length < t.length then readClassFrom? verbose outer frame rest else none
  | none => none
termination_by t.length

/-- Reads a bracketed class, given after `[`. -/
def readClass? (verbose : Bool) (t : Text) : Option (ClassExpr × Text) :=
  let (frame, rest) := openClass verbose t
  readClassFrom? verbose [] frame rest

/-! ## Groups and flags -/

/-- The flag of a letter. -/
def flagOfLetter? (c : Char) : Option Flag :=
  match c with
  | 'i' => some .ignoreCase
  | 'm' => some .multiLine
  | 's' => some .dotAll
  | 'U' => some .swapGreed
  | 'u' => some .unicode
  | 'R' => some .crlf
  | 'x' => some .verbose
  | _ => none

/-- Reads flags up to the `:` or `)` after them, which stays in the rest. A flag occurs once, and
so does the dash, which is followed by a flag. -/
def readFlags? (negated afterDash : Bool) (changes : FlagChanges) :
    Text → Option (FlagChanges × Text)
  | [] => none
  | c :: t =>
    if c == ':' || c == ')' then
      if afterDash then none else some (changes.reverse, c :: t)
    else if c == '-' then
      if negated then none else readFlags? true true changes t
    else do
      let flag ← flagOfLetter? c
      if (changes.get? flag).isSome then none
      else readFlags? negated false ((flag, !negated) :: changes) t

/-- Whether `c` may stand in the name of a group, first or later. -/
def isGroupNameChar (first : Bool) (c : Char) : Bool :=
  if first then c == '_' || isLetter c
  else c == '_' || c == '.' || c == '[' || c == ']' || isAlphanumeric c

/-- Reads the name of a group and the `>` after it. -/
def readGroupName? (t : Text) : Option (Text × Text) := do
  let (name, rest) ← t.cut? ['>']
  match name with
  | [] => none
  | c :: later =>
    if isGroupNameChar true c && later.all (isGroupNameChar false) then some (name, rest) else none

/-- What an opening parenthesis starts. -/
inductive GroupStart where
  /-- A group: whether it captures, the flags set inside it and its name. -/
  | group (capturing : Bool) (changes : FlagChanges) (name : Option Text)
  /-- Flags for the rest of the group around it. -/
  | flags (changes : FlagChanges)

/-- Reads what follows an opening parenthesis. -/
def readGroupStart? (t : Text) : Option (GroupStart × Text) :=
  if ["?=", "?!", "?<=", "?<!"].any fun look => (t.strip? look.toList).isSome then none
  else
    match (t.strip? "?P<".toList).or (t.strip? "?<".toList) with
    | some rest => (readGroupName? rest).map fun (name, rest) => (.group true [] (some name), rest)
    | none =>
      match t with
      | '?' :: rest => do
        let (changes, rest) ← readFlags? false false [] rest
        match rest with
        | ')' :: rest => if changes.isEmpty then none else some (.flags changes, rest)
        | _ :: rest => some (.group false changes none, rest)
        | [] => none
      | _ => some (.group true [] none, t)

/-! ## Repetitions -/

/-- The digits at the start of the text and what follows them. Blanks and comments of a verbose
pattern may stand between and after them. -/
def readDigits (verbose inComment : Bool) : Text → Text × Text
  | [] => ([], [])
  | c :: t =>
    if inComment then readDigits verbose (c != '\n') t
    else if verbose && isBlank c then readDigits verbose false t
    else if verbose && c == '#' then readDigits verbose true t
    else if c.isDigit then
      let (digits, rest) := readDigits verbose false t
      (c :: digits, rest)
    else ([], c :: t)

/-- Reads a decimal number, with blanks before and after it. -/
def readDecimal? (verbose : Bool) (t : Text) : Option (Nat × Text) :=
  let (digits, rest) := readDigits verbose false t.trimStart
  let value := digits.foldl (fun n c => 10 * n + (c.toNat - '0'.toNat)) 0
  if digits.isEmpty || UInt32.size ≤ value then none else some (value, rest.trimStart)

/-- Reads the bounds of a repetition, given after the opening brace. -/
def readBounds? (verbose : Bool) (t : Text) : Option (Nat × Option Nat × Text) := do
  let (least, rest) ← readDecimal? verbose (skip verbose t)
  match rest with
  | '\x7d' :: rest => return (least, some least, rest)
  | ',' :: rest =>
    match skip verbose rest with
    | '\x7d' :: rest => return (least, none, rest)
    | rest =>
      let (most, rest) ← readDecimal? verbose rest
      match rest with
      | '\x7d' :: rest => if least ≤ most then return (least, some most, rest) else none
      | _ => none
  | _ => none

/-- Reads the mark of a lazy repetition. -/
def readGreed (t : Text) : Bool × Text :=
  match t with
  | '?' :: rest => (false, rest)
  | _ => (true, t)

/-! ## Whole patterns -/

/-- A group that is being read, around the current one. -/
structure OpenGroup where
  capturing : Bool
  /-- Its flags. -/
  changes : FlagChanges
  /-- The parts before it in the group around it, the last one first. -/
  parts : List Expr
  /-- The alternatives before it in the group around it, the last one first. -/
  alternatives : List Expr
  /-- Whether the pattern is verbose around it. -/
  verbose : Bool

/-- The state of reading a pattern. -/
structure Reading where
  /-- The open groups, the innermost first. -/
  groups : List OpenGroup := []
  /-- The alternatives of the current group that are complete, the last one first. -/
  alternatives : List Expr := []
  /-- The parts of the current alternative, the last one first. -/
  parts : List Expr := []
  verbose : Bool := false
  /-- The group names so far. -/
  names : List Text := []

namespace Reading

/-- The state after one more part. -/
def add (state : Reading) (part : Expr) : Reading :=
  { state with parts := part :: state.parts }

/-- The expression of the current group. -/
def body (state : Reading) : Expr :=
  Expr.ofAlternatives (Expr.ofParts state.parts.reverse :: state.alternatives).reverse

/-- The state in which the last part is repeated. -/
def repeatLast? (state : Reading) (least : Nat) (most : Option Nat) (greedy : Bool) :
    Option Reading :=
  match state.parts with
  | [] => none
  | .flags _ :: _ => none
  | part :: parts => some { state with parts := .repetition part least most greedy :: parts }

/-- The state after an opening parenthesis and what belongs to it. -/
def openGroup? (state : Reading) (start : GroupStart) : Option Reading :=
  match start with
  | .flags changes =>
    some { state.add (.flags changes) with
      verbose := (changes.get? .verbose).getD state.verbose }
  | .group capturing changes name =>
    if name.any state.names.contains then none
    else
      some {
        groups :=
          ⟨capturing, changes, state.parts, state.alternatives, state.verbose⟩ :: state.groups
        alternatives := []
        parts := []
        verbose := (changes.get? .verbose).getD state.verbose
        names := name.toList ++ state.names }

/-- The state after a closing parenthesis. -/
def closeGroup? (state : Reading) : Option Reading :=
  match state.groups with
  | [] => none
  | group :: groups =>
    some {
      groups
      alternatives := group.alternatives
      parts := .group group.capturing group.changes state.body :: group.parts
      verbose := group.verbose
      names := state.names }

/-- The state after the next construct of the pattern, and the rest of the pattern. -/
def step? (state : Reading) : Text → Option (Reading × Text)
  | [] => none
  | '(' :: t => do
    let (start, rest) ← readGroupStart? (skip state.verbose t)
    return (← state.openGroup? start, rest)
  | ')' :: t => do return (← state.closeGroup?, t)
  | '|' :: t =>
    some ({ state with
      alternatives := Expr.ofParts state.parts.reverse :: state.alternatives
      parts := [] }, t)
  | '[' :: t => do
    let (body, rest) ← readClass? state.verbose t
    return (state.add (.charClass body), rest)
  | '?' :: t => do
    let (greedy, rest) := readGreed t
    return (← state.repeatLast? 0 (some 1) greedy, rest)
  | '*' :: t => do
    let (greedy, rest) := readGreed t
    return (← state.repeatLast? 0 none greedy, rest)
  | '+' :: t => do
    let (greedy, rest) := readGreed t
    return (← state.repeatLast? 1 none greedy, rest)
  | '\x7b' :: t => do
    let (least, most, rest) ← readBounds? state.verbose t
    let (greedy, rest) := readGreed (skip state.verbose rest)
    return (← state.repeatLast? least most greedy, rest)
  | '\\' :: t => do
    match ← readEscape? state.verbose t with
    | (.literal c isByte, rest) => return (state.add (.literal c isByte), rest)
    | (.assertion form, rest) => return (state.add (.assertion form), rest)
    | (.charClass body, rest) => return (state.add (.charClass body), rest)
  | '.' :: t => some (state.add .dot, t)
  | '^' :: t => some (state.add (.assertion .caret), t)
  | '$' :: t => some (state.add (.assertion .dollar), t)
  | c :: t => some (state.add (.literal c false), t)

/-- Reads the pattern to its end. -/
def run? (state : Reading) (t : Text) : Option Expr :=
  match skip state.verbose t with
  | [] => if state.groups.isEmpty then some state.body else none
  | c :: rest =>
    match state.step? (c :: rest) with
    | some (state, rest) => if rest.length < t.length then run? state rest else none
    | none => none
termination_by t.length

end Reading

/-- The expression of a pattern. -/
def Expr.read? (t : Text) : Option Expr := do
  let expr ← Reading.run? {} t
  if expr.depth .none ≤ Expr.depthLimit then some expr else none

end SqlScript.Regex
