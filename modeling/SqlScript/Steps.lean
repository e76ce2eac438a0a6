import SqlScript.Error

/-!
# Repeated steps

A text is changed step by step until no step applies. Nothing in the rules themselves says that
this ends, so a run is given a number of steps and fails when they are used up.
-/

namespace SqlScript

/-- Repeats the step until it does not apply, at most `limit` times. -/
def repeatSteps {σ : Type} (step : σ → Except Error (Option σ)) : Nat → σ → Except Error σ
  | 0, _ => .error .stepLimit
  | limit + 1, state => do
    match ← step state with
    | none => return state
    | some next => repeatSteps step limit next

/-- The number of steps a run on the text is given. -/
def stepLimit (t : Text) : Nat :=
  UInt64.size * (t.length + 1)

/-- A text that is being changed, and the token at which to look next. -/
structure Progress where
  sql : Text
  first : Nat
deriving DecidableEq, Repr

/-- The text with the bytes between two offsets replaced. -/
def Text.replaceSlice (t : Text) (start stop : Nat) (new : Text) : Except Error Text := do
  let before ← t.sliceTo start
  let after ← t.sliceFrom stop
  return before ++ new ++ after

/-- Repeats the step on a text, starting at its first token. -/
def Progress.run (step : Progress → Except Error (Option Progress)) (sql : Text) :
    Except Error Text := do
  let final ← repeatSteps step (stepLimit sql) ⟨sql, 0⟩
  return final.sql

end SqlScript
