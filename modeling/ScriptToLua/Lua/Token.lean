/-!
The words of Lua text, and lines that carry their nesting level. Text is laid out by choosing what a
line break looks like; all else is fixed by the words.
-/

namespace ScriptToLua.Lua

inductive Token where
  /-- A keyword or a name. -/
  | word (text : String)
  | numeral (text : String)
  /-- A string literal, by its value. -/
  | quoted (value : String)
  | symbol (text : String)
  deriving DecidableEq, Repr

/-- How a character is written inside double quotes. -/
def escape (c : Char) : List Char :=
  if c = '\\' then ['\\', '\\']
  else if c = '"' then ['\\', '"']
  else if c = '\n' then ['\\', 'n']
  else if c = '\r' then ['\\', 'r']
  else if c = '\t' then ['\\', 't']
  else if c = '\x00' then ['\\', '0']
  else [c]

/-- The literal for a string. -/
def quote (value : String) : String :=
  String.ofList ('"' :: value.toList.flatMap escape ++ ['"'])

def Token.text : Token → String
  | word text => text
  | numeral text => text
  | quoted value => quote value
  | symbol text => text

/-- A part of a printed text. -/
inductive Piece where
  | token (t : Token)
  /-- One blank. -/
  | gap
  /-- A line break before a line at the given nesting level. -/
  | line (level : Nat)
  deriving DecidableEq, Repr

inductive NewLine where
  | lf | crlf
  deriving DecidableEq, Repr

def NewLine.text : NewLine → String
  | lf => "\n"
  | crlf => "\r\n"

/-- What line breaks look like. -/
structure Layout where
  newLine : NewLine := .lf
  indentWidth : Nat := 4
  deriving DecidableEq, Repr

def Layout.text (l : Layout) : Piece → String
  | .token t => t.text
  | .gap => " "
  | .line level => l.newLine.text ++ "".pushn ' ' (level * l.indentWidth)

/-- The text of all pieces in order. -/
def Layout.render (l : Layout) (pieces : List Piece) : String :=
  pieces.foldl (fun text p => text ++ l.text p) ""

end ScriptToLua.Lua
