/-!
The names of Lua, and how any other text is made into one.
-/

namespace ScriptToLua.Lua

def keywords : List String :=
  ["and", "break", "do", "else", "elseif", "end", "false", "for", "function", "goto", "if", "in",
    "local", "nil", "not", "or", "repeat", "return", "then", "true", "until", "while"]

def isKeyword (x : String) : Bool := keywords.contains x

/-- An ASCII letter, digit or underscore. -/
def isNameChar (c : Char) : Bool := c.isAlphanum || c = '_'

/-- Name characters of which the first is no digit; keywords are not names. -/
def isName (x : String) : Bool :=
  match x.toList with
  | [] => false
  | c :: cs => !c.isDigit && isNameChar c && cs.all isNameChar && !isKeyword x

/-- A character of a source name: itself if Lua allows it, otherwise an underscore and its code point
in hexadecimal. -/
def encodeChar (c : Char) : List Char :=
  if isNameChar c then [c] else '_' :: (Nat.toDigits 16 c.toNat).map Char.toUpper

/-- The Lua name for a source name: keywords get four underscores in front, and characters that Lua
does not allow are written in hexadecimal. -/
def rename (x : String) : String :=
  if isKeyword x then "____" ++ x else String.ofList (x.toList.flatMap encodeChar)

end ScriptToLua.Lua
