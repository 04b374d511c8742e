import ScriptToLua.Lua.Value

/-!
What the operators of Lua do with values that have been computed already.
-/

namespace ScriptToLua.Lua

def Value.arithmetic? (v : Value) : Except Fault Float :=
  match v.number? with
  | some x => .ok x
  | none => .error (.notArithmetic v.kind)

/-- The text that a value contributes to a concatenation. -/
def Value.concatText? (v : Value) : Except Fault String :=
  match v with
  | .string s => .ok s
  | .number x => .ok (Decimal.Real.ofFloat x).text
  | v => .error (.notConcatenable v.kind)

/-- The result of an arithmetic operator; the remainder has the sign of the divisor. -/
def BinaryOp.arithmetic (op : BinaryOp) (a b : Float) : Float :=
  match op with
  | add => a + b
  | sub => a - b
  | mul => a * b
  | div => a / b
  | mod => a - (a / b).floor * b
  | _ => Float.pow a b

/-- The result of a comparison of numbers; nothing compares with NaN. -/
def BinaryOp.compareFloat (op : BinaryOp) (a b : Float) : Bool :=
  match op with
  | lt => a < b
  | le => a ≤ b
  | gt => b < a
  | _ => b ≤ a

/-- The result of a comparison of strings by code points. -/
def BinaryOp.compareString (op : BinaryOp) (a b : String) : Bool :=
  match op with
  | lt => a < b
  | le => a ≤ b
  | gt => b < a
  | _ => b ≤ a

def BinaryOp.compare (op : BinaryOp) : Value → Value → Except Fault Value
  | .number a, .number b => .ok (.boolean (op.compareFloat a b))
  | .string a, .string b => .ok (.boolean (op.compareString a b))
  | a, b => .error (.notComparable a.kind b.kind)

/-- The result of a binary operator. The left operand is checked first. -/
def BinaryOp.apply (op : BinaryOp) (a b : Value) : Except Fault Value :=
  match op with
  | or => .ok (if a.isTruthy then a else b)
  | and => .ok (if a.isTruthy then b else a)
  | eq => .ok (.boolean (a.rawEq b))
  | ne => .ok (.boolean (!a.rawEq b))
  | lt => op.compare a b
  | gt => op.compare a b
  | le => op.compare a b
  | ge => op.compare a b
  | concat => do
    let s ← a.concatText?
    let t ← b.concatText?
    return .string (s ++ t)
  | op => do
    let x ← a.arithmetic?
    let y ← b.arithmetic?
    return .number (op.arithmetic x y)

/-- Whether a left operand settles the result of `and` or `or`. -/
def BinaryOp.settledBy (op : BinaryOp) (a : Value) : Bool :=
  match op with
  | and => !a.isTruthy
  | or => a.isTruthy
  | _ => false

/-- Applies a builtin to the first of its arguments, `nil` if there is none. -/
def Builtin.apply (b : Builtin) (args : List Value) : Value :=
  let v := args.head?.getD .nil
  match b with
  | tostring => .string v.text
  | type => .string v.kind.name

end ScriptToLua.Lua
