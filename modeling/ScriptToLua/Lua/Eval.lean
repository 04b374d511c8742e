import ScriptToLua.Lua.Machine
import ScriptToLua.Lua.Numeral
import ScriptToLua.Lua.Operation

/-!
Running Lua code. Evaluation follows the code; only calls go from a piece of code to the body of a
closure, and those are counted.
-/

namespace ScriptToLua.Lua

/-- How running a statement ends. -/
inductive Flow where
  | next
  | returned (v : Value)

/-- Where an assignment writes to. -/
inductive Location where
  | variable (x : String)
  | entry (table key : Value)

/-- Calls a function with arguments. -/
abbrev Caller := Value → List Value → EvalM Value

def store (chain : Chain) : Location → Value → EvalM Unit
  | .variable x, v => modify fun m => m.assign chain x v
  | .entry (.table id) key, v => EvalM.setEntry id key v
  | .entry t _, _ => throw (.notIndexable t.kind)

/-- Writes values from left to right; locations without a value get `nil`. -/
def storeAll (chain : Chain) : List Location → List Value → EvalM Unit
  | [], _ => pure ()
  | l :: ls, [] => do
    store chain l .nil
    storeAll chain ls []
  | l :: ls, v :: vs => do
    store chain l v
    storeAll chain ls vs

def applyUnary (op : UnaryOp) (v : Value) : EvalM Value := do
  match op, v with
  | .not, v => return .boolean (!v.isTruthy)
  | .neg, .number x => return .number (-x)
  | .neg, v => throw (.notArithmetic v.kind)
  | .len, .table id => return .number (Float.ofNat ((← get).table id).border)
  | .len, .string s => return .number (Float.ofNat s.utf8ByteSize)
  | .len, v => throw (.noLength v.kind)

mutual

/-- The value of an expression among the scopes of `chain`. -/
@[grind =]
def Code.eval (call : Caller) (chain : Chain) : Code → EvalM Value
  | .nil => return .nil
  | .boolean b => return .boolean b
  | .number text =>
    match floatOf? text with
    | some x => return .number x
    | none => throw (.malformedNumber text)
  | .string s => return .string s
  | .name x => return ((← get).lookup? chain x).getD .nil
  | .index table key => do
    let t ← table.eval call chain
    let k ← key.eval call chain
    EvalM.index t k
  | .member table x => do
    let t ← table.eval call chain
    EvalM.index t (.string x)
  | .call callee arguments => do
    let f ← callee.eval call chain
    let args ← Code.evalAll call chain arguments
    call f args
  | .invoke receiver method arguments => do
    let r ← receiver.eval call chain
    let f ← EvalM.index r (.string method)
    let args ← Code.evalAll call chain arguments
    call f (r :: args)
  | .binary left op right => do
    let a ← left.eval call chain
    if op.settledBy a then return a
    let b ← right.eval call chain
    EvalM.ofExcept (op.apply a b)
  | .unary op operand => do
    let v ← operand.eval call chain
    applyUnary op v
  | .table fields => do
    let id ← EvalM.newTable
    Field.fillAll call chain id 1 fields
    return .table id
  | .function parameters body => EvalM.newClosure parameters body chain
  | .paren inner => inner.eval call chain
  | _ => throw .statementAsExpression

/-- The values of expressions from left to right. -/
def Code.evalAll (call : Caller) (chain : Chain) : List Code → EvalM (List Value)
  | [] => return []
  | c :: rest => do
    let v ← c.eval call chain
    let vs ← Code.evalAll call chain rest
    return v :: vs

/-- Writes fields into a table from left to right; `slot` is the next free one. -/
def Field.fillAll (call : Caller) (chain : Chain) (id : TableId) (slot : Nat) :
    List Field → EvalM Unit
  | [] => return ()
  | .item value :: rest => do
    let v ← value.eval call chain
    EvalM.setEntry id (.number (Float.ofNat slot)) v
    Field.fillAll call chain id (slot + 1) rest
  | .named x value :: rest => do
    let v ← value.eval call chain
    EvalM.setEntry id (.string x) v
    Field.fillAll call chain id slot rest
  | .keyed key value :: rest => do
    let k ← key.eval call chain
    let v ← value.eval call chain
    EvalM.setEntry id k v
    Field.fillAll call chain id slot rest

/-- The locations that targets denote, from left to right. -/
def Code.locateAll (call : Caller) (chain : Chain) : List Code → EvalM (List Location)
  | [] => return []
  | c :: rest => do
    let l ← c.locate call chain
    let ls ← Code.locateAll call chain rest
    return l :: ls

/-- The location that a target denotes. -/
def Code.locate (call : Caller) (chain : Chain) : Code → EvalM Location
  | .name x => return .variable x
  | .index table key => do
    let t ← table.eval call chain
    let k ← key.eval call chain
    return .entry t k
  | .member table x => do
    let t ← table.eval call chain
    return .entry t (.string x)
  | _ => throw .invalidTarget

/-- Runs a statement. -/
@[grind =]
def Code.exec (call : Caller) (chain : Chain) : Code → EvalM Flow
  | .locals names values => do
    let vs ← Code.evalAll call chain values
    modify fun m => m.declareAll chain names vs
    return .next
  | .localFunction x parameters body => do
    EvalM.declare chain x .nil
    let f ← EvalM.newClosure parameters body chain
    EvalM.declare chain x f
    return .next
  | .assign targets values => do
    let ls ← Code.locateAll call chain targets
    let vs ← Code.evalAll call chain values
    storeAll chain ls vs
    return .next
  | .perform expression => do
    let _ ← expression.eval call chain
    return .next
  | .returns [] => return .returned .nil
  | .returns (value :: _) => do
    let v ← value.eval call chain
    return .returned v
  | .block body => do
    let inner ← EvalM.openScope chain
    Code.execAll call inner body
  | _ => throw .expressionAsStatement

/-- Runs statements in order up to the first that returns. -/
def Code.execAll (call : Caller) (chain : Chain) : List Code → EvalM Flow
  | [] => return .next
  | c :: rest => do
    match ← c.exec call chain with
    | .returned v => return .returned v
    | .next => Code.execAll call chain rest

end

/-- The value that statements return, `nil` if they end without returning one. -/
def runBody (call : Caller) (chain : Chain) (body : List Code) : EvalM Value := do
  match ← Code.execAll call chain body with
  | .returned v => return v
  | .next => return .nil

/-- How many calls may be under way at once. -/
def maxCallDepth : Nat := 200

/-- Calls a function; at most `room` further calls are under way inside it. -/
def callAt : (room : Nat) → Caller
  | _, .builtin b, args => return b.apply args
  | 0, .function _, _ => throw .stackOverflow
  | room + 1, .function f, args => do
    if maxCallDepth ≤ (← get).depth then throw .stackOverflow
    let chain ← EvalM.openScope f.chain
    modify fun m => m.declareAll chain f.parameters args
    EvalM.nested (runBody (callAt room) chain f.body)
  | _, v, _ => throw (.notCallable v.kind)

/-- Calls a function with as many calls inside it as the machine still allows. -/
def call (f : Value) (args : List Value) : EvalM Value := do
  callAt (maxCallDepth - (← get).depth) f args

/-- Runs a chunk in a scope of its own. -/
def runChunk (chunk : List Code) : EvalM Value := do
  let chain ← EvalM.openScope []
  let depth := (← get).depth
  runBody (callAt (maxCallDepth - depth)) chain chunk

namespace Machine

/-- The value of a global variable, `nil` if there is none. -/
def global (m : Machine) (x : String) : Value := (m.globals.get? x).getD .nil

def setGlobal (m : Machine) (x : String) (v : Value) : Machine := m.declare [] x v

end Machine

end ScriptToLua.Lua
