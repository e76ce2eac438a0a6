import SqlScript.Pattern.Basic
import SqlScript.Proofs.Slice

/-!
# Where a regular expression ends its match

`Program.explore` visits states, each an instruction and a place : from a state it goes on at its
`Program.successors`, the preferred one first (`Program.explore_cons`).

A match of a regular expression ends at a place of the text (`Regex.isPlace_find?`), so the text can
be cut there : what was taken before a place and what is left after it make up the text
(`Regex.Cursor.In`), and only taking a character moves a place, by a whole character.
-/

namespace SqlScript

open List

namespace Regex

/-- The place is one of the text. -/
def Cursor.In (t : Text) (place : Cursor) : Prop :=
  ∃ taken, t = taken ++ place.after ∧ taken.byteSize = place.offset

theorem Cursor.In.isPlace {t : Text} {place : Cursor} (h : place.In t) :
    t.IsPlace place.offset := by
  obtain ⟨taken, htext, hsize⟩ := h
  exact Text.isPlace_iff.2 ⟨taken, place.after, htext, hsize⟩

/-- The place after the next character. -/
def Cursor.next (place : Cursor) (c : Char) (rest : Text) : Cursor :=
  ⟨place.offset + c.utf8Size, some c, rest⟩

/-- Taking a character leads from place to place. -/
theorem Cursor.In.next {t : Text} {place : Cursor} (h : place.In t) {c : Char} {rest : Text}
    (hafter : place.after = c :: rest) : Cursor.In t (place.next c rest) := by
  obtain ⟨taken, rfl, hsize⟩ := h
  refine ⟨taken ++ [c], by rw [hafter, append_assoc]; rfl, ?_⟩
  rw [Text.byteSize_append, hsize]
  rfl

/-! ## Steps -/

/-- The states that an instruction leads to at a place, the preferred one first. -/
def Instruction.successors (place : Cursor) : Instruction → List (Nat × Cursor)
  | .take chars next =>
    match place.after with
    | c :: rest => if chars.has c then [(next, place.next c rest)] else []
    | [] => []
  | .check form next => if Assertion.holdsAt place form then [(next, place)] else []
  | .fork first second => [(first, place), (second, place)]
  | .accept => []

namespace Program

/-- The states that a state leads to. -/
def successors (program : Program) (state : Nat × Cursor) : List (Nat × Cursor) :=
  program[state.1]?.elim [] (Instruction.successors state.2)

variable {program : Program} {entry fuel : Nat} {stop : Cursor}

theorem explore_cons (state : Nat × Cursor) (stack : List (Nat × Cursor)) (visited : Visited) :
    explore program (fuel + 1) (state :: stack) visited =
      if visited.testBit (bit program state.1 state.2) then explore program fuel stack visited
      else if program[state.1]? = some .accept then some state.2
      else explore program fuel (program.successors state ++ stack)
        (visited ||| 1 <<< bit program state.1 state.2) := by
  obtain ⟨index, place⟩ := state
  rw [explore]
  congr 1
  cases hget : program[index]? with
  | none => simp [successors, hget]
  | some instruction =>
    cases instruction with
    | take chars next =>
      cases hafter : place.after with
      | nil => simp [successors, Instruction.successors, hget, hafter]
      | cons c rest =>
        by_cases hc : chars.has c <;>
          simp [successors, Instruction.successors, hget, hafter, hc, Cursor.next]
    | check form next =>
      by_cases hform : Assertion.holdsAt place form <;>
        simp [successors, Instruction.successors, hget, hform]
    | fork first second => simp [successors, Instruction.successors, hget]
    | accept => simp

theorem mem_successors {state state' : Nat × Cursor} : state' ∈ program.successors state ↔
    ∃ instruction, program[state.1]? = some instruction ∧
      state' ∈ instruction.successors state.2 := by
  cases hget : program[state.1]? <;> simp [successors, hget]

/-- A state leads to the same place, or past a character. -/
theorem place_of_mem_successors {state state' : Nat × Cursor}
    (h : state' ∈ program.successors state) : state'.2 = state.2 ∨
      ∃ c rest, state.2.after = c :: rest ∧ state'.2 = state.2.next c rest := by
  obtain ⟨instruction, -, h⟩ := mem_successors.1 h
  cases instruction with
  | take chars next =>
    rw [Instruction.successors] at h
    split at h
    · rename_i c rest hafter
      rw [mem_ite_nil_right, mem_singleton] at h
      exact .inr ⟨c, rest, hafter, by rw [h.2]⟩
    · cases h
  | check form next =>
    rw [Instruction.successors, mem_ite_nil_right, mem_singleton] at h
    exact .inl (by rw [h.2])
  | fork first second =>
    simp only [Instruction.successors, mem_cons, not_mem_nil, or_false] at h
    rcases h with rfl | rfl <;> exact .inl rfl
  | accept => cases h

/-- A program that explores places of a text ends its match at one. -/
theorem in_of_explore {t : Text} {stack : List (Nat × Cursor)} {visited : Visited}
    (hstack : ∀ state ∈ stack, state.2.In t)
    (h : explore program fuel stack visited = some stop) : stop.In t := by
  induction fuel generalizing stack visited with
  | zero => cases h
  | succ fuel ih =>
    cases stack with
    | nil => cases h
    | cons state stack =>
      obtain ⟨hstate, hlater⟩ := forall_mem_cons.1 hstack
      rw [explore_cons] at h
      split at h
      · exact ih hlater h
      · split at h
        · exact Option.some.inj h ▸ hstate
        · refine ih (forall_mem_append.2 ⟨fun next hmem => ?_, hlater⟩) h
          rcases place_of_mem_successors hmem with hsame | ⟨c, rest, hafter, hnext⟩
          · exact hsame ▸ hstate
          · exact hnext ▸ hstate.next hafter

/-! ## Places -/

theorem isPlace_matchHere? {before : Option Char} {t : Text} {size : Nat}
    (h : program.matchHere? entry fuel before t = some size) : t.IsPlace size := by
  obtain ⟨stop, hexplore, rfl⟩ := Option.map_eq_some_iff.1 h
  refine (in_of_explore ?_ hexplore).isPlace
  exact forall_mem_singleton.2 ⟨[], rfl, rfl⟩

theorem isPlace_findFrom? (t front : Text) {before : Option Char} {stop : Nat}
    (h : program.findFrom? entry fuel front.byteSize before t = some stop) :
    (front ++ t).IsPlace stop := by
  have hhere : ∀ {t : Text} {front : Text} {before : Option Char} {size : Nat},
      program.matchHere? entry fuel before t = some size →
      (front ++ t).IsPlace (front.byteSize + size) := by
    intro t front before size hsize
    obtain ⟨a, b, rfl, rfl⟩ := Text.isPlace_iff.1 (isPlace_matchHere? hsize)
    exact Text.isPlace_iff.2 ⟨front ++ a, b, by rw [append_assoc], Text.byteSize_append _ _⟩
  induction t generalizing front before with
  | nil =>
    obtain ⟨size, hsize, rfl⟩ := Option.map_eq_some_iff.1 h
    exact hhere hsize
  | cons c t ih =>
    rw [findFrom?] at h
    split at h
    · rename_i size hsize
      cases h
      exact hhere hsize
    · have hfront : front.byteSize + c.utf8Size = (front ++ [c]).byteSize := by simp
      rw [hfront] at h
      have hplace := ih (front ++ [c]) h
      rwa [append_assoc] at hplace

end Program

/-- A match ends at a place of the text. -/
theorem isPlace_find? {regex : Regex} {t : Text} {stop : Nat} (h : regex.find? t = some stop) :
    t.IsPlace stop := by
  unfold find? at h
  simp only [Program.find?] at h
  split at h
  · exact Program.isPlace_matchHere? h
  · exact Program.isPlace_findFrom? t [] h

end Regex

/-- What the constraint of a variable matches at the start of a text ends at a place of it. -/
theorem Constraint.isPlace_matchLead? {constraint : Constraint} {t : Text} {size : Nat}
    (h : constraint.matchLead? t = some size) : t.IsPlace size :=
  Regex.isPlace_find? h

/-- The alternative that stands first is taken, although the constraint accepts the whole text. -/
theorem Constraint.matchLead?_shorter : ∃ constraint, ofSource? "a|ab".toList = some constraint ∧
    constraint.matchesWhole "ab".toList ∧ constraint.matchLead? "ab".toList = some 1 := by
  have hboth : ((ofSource? "a|ab".toList).map fun constraint =>
      (constraint.matchesWhole "ab".toList, constraint.matchLead? "ab".toList)) =
      some (true, some 1) := by
    decide +kernel
  obtain ⟨constraint, hsource, hboth⟩ := Option.map_eq_some_iff.1 hboth
  exact ⟨constraint, hsource, Prod.mk.inj hboth⟩

end SqlScript
