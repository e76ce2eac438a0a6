import SqlScript.Regex.Basic

/-!
# Matching

A regular expression is compiled to a program of instructions. At a fork the first branch is
preferred, so among the matches that start at one place the first one found depth-first is the one
that counts, and the search need not come back to an instruction at a place where it has been.
`Regex.find?` looks for the leftmost place where a match starts.
-/

namespace SqlScript.Regex

/-- A place in a text. -/
structure Cursor where
  /-- How many bytes the match has taken before it. -/
  offset : Nat
  /-- The character before it. -/
  before : Option Char
  /-- The text after it. -/
  after : Text
deriving DecidableEq, Repr

/-- Whether a character belongs to a word. -/
def isWordUnder (unicode : Bool) (c : Char) : Bool :=
  if unicode then isWord c else c.isAlphanum || c == '_'

/-- Whether the place meets the assertion. -/
def Assertion.holdsAt (place : Cursor) : Assertion → Bool
  | .textStart => place.before.isNone
  | .textEnd => place.after.isEmpty
  | .lineStart crlf =>
    place.before.all fun c =>
      c == '\n' || (crlf && c == '\r' && place.after.head? != some '\n')
  | .lineEnd crlf =>
    place.after.head?.all fun c =>
      if crlf then c == '\r' || (c == '\n' && place.before != some '\r') else c == '\n'
  | .boundary unicode kind =>
    let left := place.before.any (isWordUnder unicode)
    let right := place.after.head?.any (isWordUnder unicode)
    match kind with
    | .either => left != right
    | .neither => left == right
    | .start => !left && right
    | .stop => left && !right
    | .startHalf => !left
    | .stopHalf => !right

/-- An instruction. Instructions are named by their index in the program. -/
inductive Instruction where
  /-- Go on past one character of the set. -/
  | take (set : CharSet) (next : Nat)
  /-- Go on if the assertion holds. -/
  | check (form : Assertion) (next : Nat)
  /-- Go on at the first of two places, or else at the second. -/
  | fork (first second : Nat)
  /-- The match is complete. -/
  | accept
deriving DecidableEq, Repr

/-- A list of instructions. -/
abbrev Program := Array Instruction

namespace Program

/-- A writer of instructions that go on at a given one: it adds them to the program and gives the
first of them. -/
abbrev Writer := Nat → Program → Nat × Program

/-- Adds one instruction. -/
def add (instruction : Instruction) (program : Program) : Nat × Program :=
  (program.size, program.push instruction)

/-- Adds a fork that prefers `inside` if greedy. -/
def addFork (greedy : Bool) (inside outside : Nat) (program : Program) : Nat × Program :=
  add (if greedy then .fork inside outside else .fork outside inside) program

/-- Writes the body the given number of times. -/
def copies (body : Writer) : Nat → Writer
  | 0, next, program => (next, program)
  | count + 1, next, program =>
    let (later, program) := copies body count next program
    body later program

/-- Writes the body up to the given number of times. -/
def optionals (body : Writer) (greedy : Bool) : Nat → Writer
  | 0, next, program => (next, program)
  | count + 1, next, program =>
    let (later, program) := optionals body greedy count next program
    let (first, program) := body later program
    addFork greedy first next program

/-- Writes the body once or more often. The fork after the body leads back to its start. -/
def loop (body : Writer) (greedy : Bool) : Writer := fun next program =>
  let (fork, program) := add .accept program
  let (first, program) := body fork program
  (first, program.setIfInBounds fork (if greedy then .fork first next else .fork next first))

/-- Writes the body at least `least` times. -/
def atLeast (body : Writer) (least : Nat) (greedy : Bool) : Writer := fun next program =>
  match least with
  | 0 =>
    let (first, program) := loop body greedy next program
    addFork greedy first next program
  | least + 1 =>
    let (first, program) := loop body greedy next program
    copies body least first program

/-- Writes the instructions of a regular expression. -/
def ofRegex : Regex → Writer
  | .empty => fun next program => (next, program)
  | .one set => fun next program => add (.take set next) program
  | .assertion form => fun next program => add (.check form next) program
  | .seq a b => fun next program =>
    let (later, program) := ofRegex b next program
    ofRegex a later program
  | .capture body => fun next program => ofRegex body next program
  | .alt a b => fun next program =>
    let (first, program) := ofRegex a next program
    let (second, program) := ofRegex b next program
    add (.fork first second) program
  | .repetition body least most greedy => fun next program =>
    match most with
    | none => atLeast (fun next program => ofRegex body next program) least greedy next program
    | some most =>
      let (later, program) :=
        optionals (fun next program => ofRegex body next program) greedy (most - least) next
          program
      copies (fun next program => ofRegex body next program) least later program

/-- The instructions and places that have been visited, one bit each. -/
abbrev Visited := Nat

/-- The bit of an instruction at a place. -/
def bit (program : Program) (index : Nat) (place : Cursor) : Nat :=
  place.offset * program.size + index

/-- Follows the instructions on the stack, the top first, to the end of the first match. -/
def explore (program : Program) : Nat → List (Nat × Cursor) → Visited → Option Cursor
  | 0, _, _ => none
  | _, [], _ => none
  | fuel + 1, (index, place) :: stack, visited =>
    let mark := bit program index place
    if visited.testBit mark then explore program fuel stack visited
    else
      let visited := visited ||| 1 <<< mark
      match program[index]? with
      | some (.take set next) =>
        match place.after with
        | c :: rest =>
          if set.has c then
            let place := ⟨place.offset + c.utf8Size, some c, rest⟩
            explore program fuel ((next, place) :: stack) visited
          else explore program fuel stack visited
        | [] => explore program fuel stack visited
      | some (.check form next) =>
        if Assertion.holdsAt place form then explore program fuel ((next, place) :: stack) visited
        else explore program fuel stack visited
      | some (.fork first second) =>
        explore program fuel ((first, place) :: (second, place) :: stack) visited
      | some .accept => some place
      | none => explore program fuel stack visited

/-- The number of steps that visit every instruction at every place of a text. -/
def stepBound (program : Program) (t : Text) : Nat :=
  2 * program.size * (t.length + 1) + 2

/-- The size of the match that starts right here, given the character before it. -/
def matchHere? (program : Program) (entry fuel : Nat) (before : Option Char) (t : Text) :
    Option Nat :=
  (explore program fuel [(entry, ⟨0, before, t⟩)] 0).map (·.offset)

/-- The offset of the end of the leftmost match in a text that stands at the given offset. -/
def findFrom? (program : Program) (entry fuel offset : Nat) (before : Option Char) :
    Text → Option Nat
  | [] => (matchHere? program entry fuel before []).map (offset + ·)
  | c :: t =>
    match matchHere? program entry fuel before (c :: t) with
    | some size => some (offset + size)
    | none => findFrom? program entry fuel (offset + c.utf8Size) (some c) t

/-- Whether a match can start only where the text starts. -/
def isAnchored (program : Program) (entry : Nat) : Bool :=
  match program[entry]? with
  | some (.check .textStart _) => true
  | _ => false

/-- The offset of the end of the leftmost match in the text. -/
def find? (program : Program) (entry : Nat) (t : Text) : Option Nat :=
  let fuel := program.stepBound t
  if program.isAnchored entry then program.matchHere? entry fuel none t
  else program.findFrom? entry fuel 0 none t

end Program

/-- The offset of the end of the leftmost match in the text. -/
def find? (regex : Regex) (t : Text) : Option Nat :=
  let (entry, program) := Program.ofRegex regex 0 #[.accept]
  program.find? entry t

end SqlScript.Regex
