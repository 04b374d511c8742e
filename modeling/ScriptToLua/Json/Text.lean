import ScriptToLua.Json.Cursor
import ScriptToLua.Numeral

/-!
JSON strings. Strings whose value is needed must have their surrogates in pairs; strings that are
only passed over need not.
-/

namespace ScriptToLua.Json

open Reader

/-- Whether a value is needed or only passed over. -/
inductive Care where
  | needed | skipped
  deriving DecidableEq, Repr

/-- The bytes that `cs` takes in UTF-8. -/
def byteCount (cs : List Char) : Nat := cs.foldl (fun n c => n + c.utf8Size) 0

/-- The line breaks among the characters that begin within the first `bytes` bytes. -/
def breaksWithin : (bytes : Nat) → List Char → Nat
  | 0, _ => 0
  | _, [] => 0
  | bytes + 1, c :: rest =>
    (if c = '\n' then 1 else 0) + breaksWithin (bytes + 1 - c.utf8Size) rest

/-- The four hexadecimal digits of an escape. Text that is shorter than four bytes ends too early;
other text goes wrong after four bytes. -/
def hexQuad : Reader Nat := do
  let c ← get
  match Numeral.natural? 16 (c.rest.take 4) with
  | some n =>
    if 4 ≤ c.rest.length then
      set (⟨c.rest.drop 4, c.line⟩ : Cursor)
      return n
    else throw (.truncated c.lastLine)
  | none =>
    if byteCount c.rest < 4 then throw (.truncated c.lastLine)
    else throw (.malformed (c.line + breaksWithin 4 c.rest))

def isHighSurrogate (n : Nat) : Bool := 0xD800 ≤ n && n ≤ 0xDBFF

def isLowSurrogate (n : Nat) : Bool := 0xDC00 ≤ n && n ≤ 0xDFFF

/-- Reads one character that has to be `c`. -/
def exactly (c : Char) : Reader Unit := do
  if (← take) = c then return () else fail

/-- The character of an escape after `\u`. A high surrogate needs a low one after it. -/
def unicodeEscape : Reader Char := do
  let n ← hexQuad
  if isLowSurrogate n then fail
  else if isHighSurrogate n then
    exactly '\\'
    exactly 'u'
    let low ← hexQuad
    if isLowSurrogate low then
      return Char.ofNat (0x10000 + (n - 0xD800) * 0x400 + (low - 0xDC00))
    else fail
  else return Char.ofNat n

/-- The character of an escape after its backslash. -/
def escaped (care : Care) : Reader Char := do
  match ← take with
  | '"' => return '"'
  | '\\' => return '\\'
  | '/' => return '/'
  | 'b' => return '\x08'
  | 'f' => return '\x0c'
  | 'n' => return '\n'
  | 'r' => return '\r'
  | 't' => return '\t'
  | 'u' =>
    match care with
    | .needed => unicodeEscape
    | .skipped => return Char.ofNat (← hexQuad)
  | _ => fail

/-- The characters up to the closing quote, at most `room` of them. Control characters have to be
escaped. -/
def stringFrom (care : Care) : (room : Nat) → Reader (List Char)
  | 0 => fail
  | room + 1 => do
    match ← peek with
    | '"' =>
      advance
      return []
    | '\\' =>
      advance
      let c ← escaped care
      return c :: (← stringFrom care room)
    | c =>
      if c.toNat < 0x20 then
        match care with
        | .needed => failNext
        | .skipped => fail
      else
        advance
        return c :: (← stringFrom care room)

/-- A string from its opening quote on. -/
def string (care : Care) : Reader String := do
  advance
  let room := (← get).rest.length + 1
  return String.ofList (← stringFrom care room)

end ScriptToLua.Json
