import ScriptToLua.Json.Number

/-!
JSON values as far as options need them: booleans and strings are kept, and of all other values only
the form is checked.
-/

namespace ScriptToLua.Json

open Reader

inductive Value where
  | boolean (b : Bool)
  | string (s : String)
  | other
  deriving DecidableEq, Repr

/-- Reads the colon after a key. -/
def colon : Reader Unit := do
  if (← token) = ':' then advance else failNext

/-- Goes into an array or an object. Values that are needed may be nested `levels` deep. -/
def enter (care : Care) (levels : Nat) : Reader Unit := do
  if care = .needed && levels ≤ 1 then failNext else advance

mutual

/-- A value; `room` bounds the steps of reading it. -/
def valueAt (care : Care) : (room : Nat) → (levels : Nat) → Reader Value
  | 0, _ => fail
  | room + 1, levels => do
    match ← token with
    | 'n' =>
      word "null".toList
      return .other
    | 't' =>
      word "true".toList
      return .boolean true
    | 'f' =>
      word "false".toList
      return .boolean false
    | '"' => return .string (← string care)
    | '[' =>
      enter care levels
      if (← token) = ']' then advance else elementsAt care room (levels - 1)
      return .other
    | '{' =>
      enter care levels
      if (← token) = '}' then advance else entriesAt care room (levels - 1)
      return .other
    | c =>
      if c = '-' || c.isDigit then
        let _ ← signedNumber care
        return .other
      else failNext

/-- The elements of an array up to its closing bracket. -/
def elementsAt (care : Care) : (room : Nat) → (levels : Nat) → Reader Unit
  | 0, _ => fail
  | room + 1, levels => do
    let _ ← valueAt care room levels
    match ← token with
    | ',' =>
      advance
      elementsAt care room levels
    | ']' => advance
    | _ => failNext

/-- The entries of an object up to its closing bracket. -/
def entriesAt (care : Care) : (room : Nat) → (levels : Nat) → Reader Unit
  | 0, _ => fail
  | room + 1, levels => do
    if (← token) = '"' then
      let _ ← string care
      colon
    else failNext
    let _ ← valueAt care room levels
    match ← token with
    | ',' =>
      advance
      entriesAt care room levels
    | '}' => advance
    | _ => failNext

end

/-- A value that may be nested `levels` deep if it is needed. Every two steps of reading it pass over
a character. -/
def value (care : Care) (levels : Nat) : Reader Value := do
  valueAt care (2 * (← get).rest.length + 2) levels

/-- Passes over a value. -/
def skip : Reader Unit := do
  let _ ← value .skipped 0

/-- What stands here is none of the expected values. A word, number or string is still read to its
end, so that what is wrong with it comes first. -/
def mismatch {α : Type} : Reader α := do
  match ← token with
  | '[' => throw .unexpected
  | '{' => throw .unexpected
  | _ =>
    let _ ← value .needed 0
    throw .unexpected

end ScriptToLua.Json
