import ScriptToLua.Lua.Syntax
import ScriptToLua.Numeral
import ScriptToLua.Source.Syntax

/-!
Source operators, numerals and templates in Lua.
-/

namespace ScriptToLua.Lowering

open Lua (Code)

def luaBinary : Source.BinaryOp → Lua.BinaryOp
  | .add => .add
  | .sub => .sub
  | .mul => .mul
  | .div => .div
  | .mod => .mod
  | .lt => .lt
  | .le => .le
  | .gt => .gt
  | .ge => .ge
  | .eq => .eq
  | .ne => .ne
  | .and => .and
  | .or => .or

def luaUnary : Source.UnaryOp → Lua.UnaryOp
  | .minus => .neg
  | .not => .not

def luaUpdate : Source.UpdateOp → Lua.BinaryOp
  | .increment => .add
  | .decrement => .sub

/-- The base of a binary or octal numeral, and its digits. -/
def smallBase? : List Char → Option (Nat × List Char)
  | '0' :: 'b' :: ds => some (2, ds)
  | '0' :: 'B' :: ds => some (2, ds)
  | '0' :: 'o' :: ds => some (8, ds)
  | '0' :: 'O' :: ds => some (8, ds)
  | _ => none

/-- A source numeral as a Lua numeral: separators go, and binary and octal numerals of up to 64 bits
become decimal. -/
def luaNumeral (text : String) : String :=
  let cs := text.toList.filter (· ≠ '_')
  match (smallBase? cs).bind fun (base, ds) => Numeral.nat64? base ds with
  | some n => toString n
  | none => String.ofList cs

/-- The call of `tostring`. -/
def textOf (value : Code) : Code := .call (.name "tostring") [value]

def isEmptyText : Code → Bool
  | .string s => s = ""
  | _ => false

/-- The concatenation of parts, grouped to the right. -/
def concatenated : List Code → Code
  | [] => .string ""
  | [c] => c
  | c :: rest => .binary c .concat (concatenated rest)

/-- The concatenation of the parts that are no empty texts. -/
def joinTexts (parts : List Code) : Code := concatenated (parts.filter fun c => !isEmptyText c)

end ScriptToLua.Lowering
