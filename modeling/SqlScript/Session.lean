import SqlScript.Error

/-!
# Sessions

Tables that stand in for temporary ones carry a session id in their names: eight letters and
numerals, a letter first. A session names its id, or takes the id of the running program, and may
name the schema such tables are put into.
-/

namespace SqlScript

namespace SessionId

/-- The number of characters of a session id. -/
def size : Nat := 8

/-- Refuses a text that is no session id. -/
def validate (id : Text) : Except Error Unit :=
  if id.length != size then .error (.invalidSessionId id (.length id.length))
  else if !id.head?.any isLetter then .error (.invalidSessionId id .firstCharacter)
  else if !id.all isAlphanumeric then .error (.invalidSessionId id .illegalCharacter)
  else .ok ()

/-- The small letters. -/
def letters : Text :=
  "abcdefghijklmnopqrstuvwxyz".toList

/-- The small letters and the digits. -/
def alphanumerics : Text :=
  letters ++ "0123456789".toList

/-- The character that a byte picks from an alphabet. -/
def pick (alphabet : Text) (byte : UInt8) : Char :=
  alphabet.getD (byte.toNat % alphabet.length) 'a'

/-- The session id that random bytes, eight at least, pick. -/
def ofBytes : List UInt8 → Text
  | [] => []
  | byte :: bytes =>
    pick letters byte :: (bytes.take (size - 1)).map (pick alphanumerics)

end SessionId

/-- What a run of rules is told about the session. -/
structure Session where
  /-- The id to use. -/
  id : Option Text := none
  /-- The schema of the tables that stand in for temporary ones. -/
  tempSchema : Option Text := none
  /-- The id of the running program, used where none is given. -/
  programId : Text

/-- What the replacement texts of rules may refer to. -/
structure SessionValues where
  /-- The text for `%session_id%`. -/
  sessionId : Text
  /-- The text for `%temp_prefix%`. -/
  tempPrefix : Text
deriving DecidableEq, Repr

/-- The values of a session, unless its id is refused. -/
def Session.values (session : Session) : Except Error SessionValues := do
  let sessionId ←
    match session.id with
    | some id => do
      SessionId.validate id
      pure id
    | none => pure session.programId
  let tempPrefix :=
    match session.tempSchema with
    | some schema => schema ++ ['.']
    | none => []
  return ⟨sessionId, tempPrefix⟩

/-- The replacement text with its references to the session filled in. -/
def SessionValues.fill (values : SessionValues) (replacement : Text) : Text :=
  (replacement.replaceAll "%session_id%".toList values.sessionId).replaceAll
    "%temp_prefix%".toList values.tempPrefix

end SqlScript
