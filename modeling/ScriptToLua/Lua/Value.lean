import ScriptToLua.Decimal.Positional
import ScriptToLua.Lua.Syntax
import ScriptToLua.Text.Invisible
import ScriptToLua.Text.Mark

/-!
The values of running Lua code, what can go wrong with them, and their equality.
-/

namespace ScriptToLua.Lua

/-- Names a scope of the machine. -/
abbrev ScopeId := Nat

/-- Names a table of the machine. -/
abbrev TableId := Nat

/-- The local scopes around a piece of code from the innermost to the outermost. The globals lie
beyond all of them. -/
abbrev Chain := List ScopeId

/-- A function together with the scopes it was made in. Two closures are the same when their
numbers are. -/
structure Closure where
  id : Nat
  parameters : List String
  body : List Code
  chain : Chain

inductive Builtin where
  | tostring | type
  deriving DecidableEq, Repr

def Builtin.name : Builtin → String
  | tostring => "tostring"
  | type => "type"

inductive Value where
  | nil
  | boolean (b : Bool)
  | number (x : Float)
  | string (s : String)
  | table (id : TableId)
  | function (f : Closure)
  | builtin (b : Builtin)

/-- The types of values that Lua tells apart. -/
inductive Kind where
  | nil | boolean | number | string | table | function
  deriving DecidableEq, Repr

def Kind.name : Kind → String
  | nil => "nil"
  | boolean => "boolean"
  | number => "number"
  | string => "string"
  | table => "table"
  | function => "function"

/-- Why running code fails. -/
inductive Fault where
  | nilKey
  | nanKey
  | expressionAsStatement
  | statementAsExpression
  | invalidTarget
  | malformedNumber (text : String)
  | notIndexable (kind : Kind)
  | notCallable (kind : Kind)
  | noLength (kind : Kind)
  | notConcatenable (kind : Kind)
  | notArithmetic (kind : Kind)
  | notComparable (left right : Kind)
  | stackOverflow
  deriving DecidableEq, Repr

/-- What a fault says about itself. -/
def Fault.reason : Fault → String
  | nilKey => "table index is nil"
  | nanKey => "table index is NaN"
  | expressionAsStatement => "expression used as a statement"
  | statementAsExpression => "statement used as an expression"
  | invalidTarget => "cannot assign to"
  | malformedNumber text => "malformed number '" ++ text ++ "'"
  | notIndexable kind => "attempt to index a " ++ kind.name ++ " value"
  | notCallable kind => "attempt to call a " ++ kind.name ++ " value"
  | noLength kind => "attempt to get length of a " ++ kind.name ++ " value"
  | notConcatenable kind => "attempt to concatenate a " ++ kind.name ++ " value"
  | notArithmetic kind => "attempt to perform arithmetic on a " ++ kind.name ++ " value"
  | notComparable left right => "attempt to compare " ++ left.name ++ " with " ++ right.name
  | stackOverflow => "stack overflow"

def Fault.message (f : Fault) : String := "lua runtime error: " ++ f.reason

namespace Value

instance : Inhabited Value := ⟨nil⟩

def kind : Value → Kind
  | nil => .nil
  | boolean _ => .boolean
  | number _ => .number
  | string _ => .string
  | table _ => .table
  | function _ => .function
  | builtin _ => .function

/-- Everything but `nil` and `false` counts as true. -/
def isTruthy : Value → Bool
  | nil => false
  | boolean b => b
  | _ => true

def isNil : Value → Bool
  | nil => true
  | _ => false

def number? : Value → Option Float
  | number x => some x
  | _ => none

def string? : Value → Option String
  | string s => some s
  | _ => none

/-- The value as text; tables and functions show their number. -/
def text : Value → String
  | nil => "nil"
  | boolean b => if b then "true" else "false"
  | number x => (Decimal.Real.ofFloat x).text
  | string s => s
  | table id => "table: " ++ toString id
  | function f => "function: " ++ toString f.id
  | builtin b => "builtin: " ++ b.name

/-- How a character of a string shows in a listing of values: what cannot be seen there by itself is
written by its code point. -/
def listedChar (c : Char) : List Char :=
  if c = '"' ∨ c = '\\' then ['\\', c]
  else if c = '\n' then ['\\', 'n']
  else if c = '\r' then ['\\', 'r']
  else if c = '\t' then ['\\', 't']
  else if c = '\x00' then ['\\', '0']
  else if Text.isInvisible c || Text.isMark c then
    '\\' :: 'u' :: '{' :: Nat.toDigits 16 c.toNat ++ ['}']
  else [c]

/-- The value as it shows in a listing: its text, and strings in quotes. -/
def listed : Value → String
  | string s => String.ofList ('"' :: s.toList.flatMap listedChar ++ ['"'])
  | v => v.text

/-- Lua's equality: by value for numbers and strings, by identity for tables and functions. -/
def rawEq : Value → Value → Bool
  | nil, nil => true
  | boolean a, boolean b => a = b
  | number a, number b => a == b
  | string a, string b => a = b
  | table a, table b => a = b
  | function a, function b => a.id = b.id
  | builtin a, builtin b => a = b
  | _, _ => false

end Value

end ScriptToLua.Lua
