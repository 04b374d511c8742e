/-!
Lua code as trees. One type holds expressions and statements; which of them a tree is, and whether
its parts stand where they may, is for its readers to say.
-/

namespace ScriptToLua.Lua

inductive BinaryOp where
  | or | and
  | lt | gt | le | ge | ne | eq
  | concat
  | add | sub
  | mul | div | mod
  | pow
  deriving DecidableEq, Repr

namespace BinaryOp

/-- The operators from the weakest to the strongest. -/
def all : List BinaryOp :=
  [or, and, lt, gt, le, ge, ne, eq, concat, add, sub, mul, div, mod, pow]

def text : BinaryOp → String
  | or => "or"
  | and => "and"
  | lt => "<"
  | gt => ">"
  | le => "<="
  | ge => ">="
  | ne => "~="
  | eq => "=="
  | concat => ".."
  | add => "+"
  | sub => "-"
  | mul => "*"
  | div => "/"
  | mod => "%"
  | pow => "^"

/-- How strongly the operator binds; the gaps are levels of operators that are not used here. -/
def precedence : BinaryOp → Nat
  | or => 1
  | and => 2
  | lt => 3
  | gt => 3
  | le => 3
  | ge => 3
  | ne => 3
  | eq => 3
  | concat => 9
  | add => 10
  | sub => 10
  | mul => 11
  | div => 11
  | mod => 11
  | pow => 14

def isRightAssociative (op : BinaryOp) : Bool := op = concat || op = pow

end BinaryOp

inductive UnaryOp where
  | not | neg | len
  deriving DecidableEq, Repr

namespace UnaryOp

def all : List UnaryOp := [not, neg, len]

/-- The operator together with the blank that separates it from its operand, if it needs one. -/
def text : UnaryOp → String
  | not => "not "
  | neg => "-"
  | len => "#"

/-- How strongly every unary operator binds. -/
def precedence : Nat := 12

end UnaryOp

mutual

inductive Code where
  | nil
  | boolean (value : Bool)
  /-- A numeral, kept as text. -/
  | number (text : String)
  | string (value : String)
  | name (name : String)
  /-- `table[key]` -/
  | index (table key : Code)
  /-- `table.name` -/
  | member (table : Code) (name : String)
  | call (callee : Code) (arguments : List Code)
  /-- `receiver:method(arguments)` -/
  | invoke (receiver : Code) (method : String) (arguments : List Code)
  | binary (left : Code) (op : BinaryOp) (right : Code)
  | unary (op : UnaryOp) (operand : Code)
  | table (fields : List Field)
  | function (parameters : List String) (body : List Code)
  | paren (inner : Code)
  /-- `local names = values` -/
  | locals (names : List String) (values : List Code)
  /-- `local function name(parameters) body end` -/
  | localFunction (name : String) (parameters : List String) (body : List Code)
  | assign (targets values : List Code)
  /-- An expression in the place of a statement. -/
  | perform (expression : Code)
  | returns (values : List Code)
  /-- `do body end` -/
  | block (body : List Code)

/-- A field of a table constructor. -/
inductive Field where
  /-- The value of the next free slot. -/
  | item (value : Code)
  /-- `name = value` -/
  | named (name : String) (value : Code)
  /-- `[key] = value` -/
  | keyed (key value : Code)

end

namespace Code

instance : Inhabited Code := ⟨nil⟩

/-- The numeral of an integer. -/
def integer (n : Int) : Code := number (toString n)

/-- `local name = value` -/
def bindLocal (x : String) (value : Code) : Code := locals [x] [value]

/-- `target = value` -/
def store (target value : Code) : Code := assign [target] [value]

/-- `return value` -/
def yields (value : Code) : Code := returns [value]

/-- `(function() body end)()`, which runs statements where an expression stands. -/
def immediate (body : List Code) : Code := call (function [] body) []

def isCall : Code → Bool
  | call .. => true
  | invoke .. => true
  | _ => false

def isReturn : Code → Bool
  | returns _ => true
  | _ => false

/-- Whether the code is a constant. -/
def isLiteral : Code → Bool
  | nil => true
  | boolean _ => true
  | number _ => true
  | string _ => true
  | _ => false

/-- Whether the code only reads: evaluating it twice is like evaluating it once. -/
def isPure : Code → Bool
  | nil => true
  | boolean _ => true
  | number _ => true
  | string _ => true
  | name _ => true
  | member t _ => isPure t
  | index t k => isPure t && isPure k
  | binary left _ right => isPure left && isPure right
  | unary _ operand => isPure operand
  | paren inner => isPure inner
  | _ => false

end Code

end ScriptToLua.Lua
