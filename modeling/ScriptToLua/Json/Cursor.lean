/-!
Reading a JSON text from left to right. A reader stops at the first place where the text goes wrong;
the place is given by its line.
-/

namespace ScriptToLua.Json

/-- The unread part of a text and the number of the line it begins on. -/
structure Cursor where
  rest : List Char
  line : Nat
  deriving DecidableEq, Repr

namespace Cursor

def start (cs : List Char) : Cursor := ⟨cs, 1⟩

/-- Passes over one character. -/
def next : Cursor → Cursor
  | ⟨[], line⟩ => ⟨[], line⟩
  | ⟨c :: rest, line⟩ => ⟨rest, if c = '\n' then line + 1 else line⟩

/-- Passes over the white space of JSON. -/
def skipBlanks : List Char → (line : Nat) → Cursor
  | [], line => ⟨[], line⟩
  | c :: rest, line =>
    if c = '\n' then skipBlanks rest (line + 1)
    else if c = ' ' ∨ c = '\t' ∨ c = '\r' then skipBlanks rest line
    else ⟨c :: rest, line⟩

/-- The line that the text ends on. -/
def lastLine (c : Cursor) : Nat := c.line + c.rest.count '\n'

end Cursor

/-- Why a text cannot be read. -/
inductive Flaw where
  /-- The text is no JSON from this line on. -/
  | malformed (line : Nat)
  /-- The text ends too early. -/
  | truncated (line : Nat)
  /-- A value is of none of the kinds that are expected. -/
  | unexpected
  /-- A value of the right kind is refused, for a reason of its own. -/
  | refused (reason : String)
  deriving DecidableEq, Repr

abbrev Reader := StateT Cursor (Except Flaw)

namespace Reader

variable {α : Type}

def peek? : Reader (Option Char) := return (← get).rest.head?

def advance : Reader Unit := modify Cursor.next

/-- The text goes wrong with what has been read last. -/
def fail : Reader α := do throw (.malformed (← get).line)

/-- The text goes wrong with the next character. -/
def failNext : Reader α := do throw (.malformed (← get).next.line)

/-- The text ends where it should go on. -/
def failEnd : Reader α := do throw (.truncated (← get).line)

/-- The next character, which has to be there. -/
def peek : Reader Char := do
  match ← peek? with
  | some c => return c
  | none => failEnd

/-- Reads one character, which has to be there. -/
def take : Reader Char := do
  let c ← peek
  advance
  return c

/-- The next character that is no white space. -/
def token? : Reader (Option Char) := do
  modify fun c => .skipBlanks c.rest c.line
  peek?

/-- The next character that is no white space, which has to be there. -/
def token : Reader Char := do
  match ← token? with
  | some c => return c
  | none => failEnd

/-- Reads the characters of a word. -/
def word : List Char → Reader Unit
  | [] => return ()
  | w :: ws => do
    if (← take) = w then word ws else fail

end Reader

end ScriptToLua.Json
