import ScriptToLua.Decimal.Reader
import ScriptToLua.Lua.Syntax

/-!
Numerals of Lua code: the integer or the double that a text denotes.
-/

namespace ScriptToLua.Lua

/-- The 64-bit integer that a numeral writes: hexadecimal after its marker, with an optional sign
there, or plain decimal digits. -/
def integerOf? (text : String) : Option Int :=
  let cs := text.toList
  match Numeral.hexDigits? cs with
  | some digits => Numeral.int64? 16 digits
  | none => if Numeral.isDecimal cs then Numeral.int64? 10 cs else none

/-- The integer value of a numeral. -/
def Code.integer? : Code → Option Int
  | number text => integerOf? text
  | _ => none

/-- The double that a numeral denotes: a 64-bit hexadecimal integer or a decimal. -/
def floatOf? (text : String) : Option Float :=
  let cs := text.toList
  match Numeral.hexDigits? cs with
  | some digits => (Numeral.int64? 16 digits).map Float.ofInt
  | none => Decimal.float? cs

end ScriptToLua.Lua
