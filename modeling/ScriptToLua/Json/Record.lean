import ScriptToLua.Json.Value

/-!
JSON records: objects with known keys, or arrays that give the same fields by position. Fields that
are left out keep their value.
-/

namespace ScriptToLua.Json

open Reader

/-- A field of a record of type `σ`: its key, and how its value is put into the record. -/
structure FieldReader (σ : Type) where
  key : String
  read : σ → Reader σ

variable {σ : Type}

/-- The end of an array whose elements have all been read. -/
def arrayEnd : Reader Unit := do
  match ← token with
  | ']' => advance
  | ',' => do
    advance
    let _ ← token?
    failNext
  | _ => failNext

/-- The fields of a record by position; `first` says whether no element has been read. -/
def positional (first : Bool) (s : σ) : List (FieldReader σ) → Reader σ
  | [] => do
    arrayEnd
    return s
  | f :: fs => do
    match ← token with
    | ']' =>
      arrayEnd
      return s
    | c =>
      if !first then
        if c = ',' then
          advance
          if (← token) = ']' then failNext
        else failNext
      positional false (← f.read s) fs

/-- Reads the value of a key. A known key may stand only once; what is under other keys is passed
over. -/
def keyed (fields : List (FieldReader σ)) (seen : List String) (key : String) (s : σ) :
    Reader σ := do
  match fields.find? fun f => f.key = key with
  | some f =>
    if seen.contains key then throw .unexpected
    colon
    f.read s
  | none =>
    colon
    skip
    return s

/-- The entries of a record by key, at most `room` of them, up to the closing bracket. -/
def entries (fields : List (FieldReader σ)) :
    (room : Nat) → (seen : List String) → σ → Reader σ
  | 0, _, _ => fail
  | room + 1, seen, s => do
    if (← token) = '"' then
      let key ← string .needed
      let s ← keyed fields seen key s
      match ← token with
      | '}' =>
        advance
        return s
      | ',' =>
        advance
        entries fields room (key :: seen) s
      | _ => failNext
    else failNext

/-- A record whose fields start with the values that they have in `s`. -/
def record (fields : List (FieldReader σ)) (s : σ) : Reader σ := do
  match ← token with
  | '[' =>
    advance
    positional true s fields
  | '{' =>
    advance
    if (← token) = '}' then
      advance
      return s
    else entries fields ((← get).rest.length + 1) [] s
  | _ => mismatch

end ScriptToLua.Json
