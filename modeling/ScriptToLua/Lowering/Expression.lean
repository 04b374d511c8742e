import ScriptToLua.Lowering.Access
import ScriptToLua.Lowering.Literal
import ScriptToLua.Lowering.Monad
import ScriptToLua.Lowering.Operator

/-!
Lowering of expressions. Every form of expression is lowered by a function of its own, which lowers
the parts of the expression through a function that it is given; `expressionAt` closes the circle and
counts the nesting.
-/

namespace ScriptToLua.Lowering

open Lua (Code Field)
open Source (Node NodeId)

/-- Lowers an expression. -/
abbrev Lowerer := NodeId → LowerM Code

/-- `receiver.name` -/
def namedAccess (lower : Lowerer) (receiver : NodeId) (name : String) : LowerM Access := do
  let type ← typeOf receiver
  let code ← lower receiver
  withTypes (Access.ofType code (.named name) type)

/-- `receiver[key]` -/
def elementAccess (lower : Lowerer) (receiver key : NodeId) : LowerM Access := do
  let type ← typeOf receiver
  let code ← lower receiver
  let keyType ← typeOf key
  let keyCode ← lower key
  withTypes (Access.ofType code (.element keyCode keyType) type)

/-- The access that a node denotes, if it is one. -/
def accessAt? (lower : Lowerer) (id : NodeId) : LowerM (Option Access) := do
  match ← node? id with
  | some (.property receiver name) => some <$> namedAccess lower receiver name
  | some (.element receiver key) => some <$> elementAccess lower receiver key
  | _ => return none

def readAccess (a : Access) : LowerM Code := do
  let fold := (← read).fold
  askTypes fun s => a.read s fold

/-- A property of an object literal whose context is array-like. Numeric keys are slots, and so are
strings that are array indices and computed keys that are numbers. -/
def hybridProperty (lower : Lowerer) : Source.Key × NodeId → LowerM HybridProperty
  | (.number text, value) => return .slot (.number (luaNumeral text)) (← lower value)
  | (.string s, value) => do
    let v ← lower value
    return if isIndexText s then .slot (.number s) v else .named s v
  | (.name x, value) => return .named x (← lower value)
  | (.computed key, value) => do
    let type ← typeOf key
    let k ← lower key
    let v ← lower value
    return if ← askTypes fun s => s.isNumberLike type then .slot k v else .keyed k v

/-- A property of any other object literal. -/
def recordField (lower : Lowerer) : Source.Key × NodeId → LowerM Field
  | (.number text, value) => return .keyed (.number (luaNumeral text)) (← lower value)
  | (.string s, value) => return .named s (← lower value)
  | (.name x, value) => return .named x (← lower value)
  | (.computed key, value) => do
    let k ← lower key
    let v ← lower value
    return .keyed k v

/-- An object literal whose context expects a value of the given type. -/
def objectLiteral (lower : Lowerer) (properties : List (Source.Key × NodeId)) (context : TypeId) :
    LowerM Code := do
  let shape ← withTypes (shapeOf context)
  if shape.isArrayLike then
    return hybridLiteral (← read).fold (← properties.mapM (hybridProperty lower))
  else
    return .table (← properties.mapM (recordField lower))

/-- The expression under at most `layers` pairs of parentheses. -/
def underParens (arena : Source.Arena) : (layers : Nat) → NodeId → NodeId
  | 0, id => id
  | layers + 1, id =>
    match arena.get? id with
    | some (.parenthesized inner) => underParens arena layers inner
    | _ => id

/-- Lowers an expression where a value of the given type is expected; only object literals, also in
parentheses, depend on it. -/
def lowerInContext (lower : Lowerer) (id : NodeId) (context : TypeId) : LowerM Code := do
  let arena := (← read).arena
  let inner := underParens arena arena.size id
  match arena.get? inner with
  | some (.object properties) =>
    if context = .unknown then lower inner else objectLiteral lower properties context
  | _ => lower inner

def template (lower : Lowerer) (head : String) (spans : List (NodeId × String)) : LowerM Code := do
  let parts ← spans.mapM fun (e, text) => return [textOf (← lower e), .string text]
  return joinTexts (.string head :: parts.flatten)

/-- An operand of a concatenation; what is neither string nor number is made a string. -/
def concatOperand (lower : Lowerer) (id : NodeId) (type : TypeId) : LowerM Code := do
  let code ← lower id
  let joins ← askTypes fun s => s.isStringLike type || s.isNumberLike type
  return if joins then code else textOf code

/-- A sum with a string on either side is a concatenation. -/
def sum (lower : Lowerer) (left right : NodeId) : LowerM Code := do
  let leftType ← typeOf left
  let rightType ← typeOf right
  if ← askTypes fun s => s.isStringLike leftType || s.isStringLike rightType then
    let l ← concatOperand lower left leftType
    let r ← concatOperand lower right rightType
    return .binary l .concat r
  else
    let l ← lower left
    let r ← lower right
    return .binary l .add r

def binary (lower : Lowerer) (left : NodeId) (op : Source.BinaryOp) (right : NodeId) :
    LowerM Code := do
  if op = .add then sum lower left right
  else
    let l ← lower left
    let r ← lower right
    return .binary l (luaBinary op) r

/-- A call. A member is called on its receiver, whether it is named after a dot or by a string. -/
def call (lower : Lowerer) (callee : NodeId) (arguments : List NodeId) : LowerM Code := do
  let arena := (← read).arena
  let inner := arena.strip callee
  match arena.get? inner with
  | some (.property receiver name) =>
    let a ← namedAccess lower receiver name
    let args ← arguments.mapM lower
    if a.shape.isArrayLike && a.member?.isNone then report inner (.unknownArrayMethod name)
    return callMember a.receiver name a.member? args
  | some (.element receiver key) =>
    match arena.get? key with
    | some (.string name) =>
      let a ← elementAccess lower receiver key
      match a.member? with
      | some m => return callMember a.receiver name (some m) (← arguments.mapM lower)
      | none =>
        let f ← readAccess a
        return .call f (← arguments.mapM lower)
    | _ => plainCall
  | _ => plainCall
where
  plainCall : LowerM Code := do
    let f ← lower callee
    return .call f (← arguments.mapM lower)

/-- Whether a compound assignment adds to a string. -/
def addsToString (target value : NodeId) : LowerM Bool := do
  let targetType ← typeOf target
  if ← askTypes fun s => s.isStringLike targetType then return true
  let valueType ← typeOf value
  askTypes fun s => s.isStringLike valueType

/-- The operator that an assignment applies before it writes. -/
def compoundOp (op : Source.AssignOp) (target value : NodeId) : LowerM (Option Lua.BinaryOp) := do
  match op.binary? with
  | none => return none
  | some .add => return some (if ← addsToString target value then .concat else .add)
  | some op => return some (luaBinary op)

/-- The place that an assignment at `id` writes to. What cannot be written is reported. -/
def placeAt? (lower : Lowerer) (id target : NodeId) : LowerM (Option Place) := do
  let c ← read
  let inner := c.arena.strip target
  match c.arena.get? inner with
  | some (.identifier x) => return some (.variable (Lua.rename x))
  | _ =>
    match ← accessAt? lower inner with
    | none =>
      report id .invalidTarget
      return none
    | some a =>
      if ← askTypes fun s => a.isLength s c.fold then
        report id .lengthAssignment
        return none
      else askTypes fun s => some (a.place s c.fold)

/-- What is left of an assignment without a place: its value, as far as it is needed. -/
def valueOnly (value : Code) : Use → Option Code
  | .value => some value
  | .statement => if value.isCall then some (.perform value) else none

/-- The code of an assignment, if there is any. -/
def assignment? (lower : Lowerer) (id target : NodeId) (op : Source.AssignOp) (value : NodeId)
    (use : Use) : LowerM (Option Code) := do
  let op ← compoundOp op target value
  let place ← placeAt? lower id target
  let code ← lower value
  match place with
  | some p => return some (p.assign op code use)
  | none => return valueOnly code use

/-- The code of an update, if there is any. -/
def update? (lower : Lowerer) (op : Source.UpdateOp) (before : Bool) (operand : NodeId)
    (use : Use) : LowerM (Option Code) := do
  let place ← placeAt? lower operand operand
  return place.map fun p => p.update (luaUpdate op) (if before then .new else .old) use

/-- The code of a deletion, if there is any. -/
def deletion? (lower : Lowerer) (id operand : NodeId) (use : Use) : LowerM (Option Code) := do
  let c ← read
  match ← accessAt? lower (c.arena.strip operand) with
  | some a => askTypes fun s => some (a.delete s c.fold use)
  | none =>
    report id .invalidDeleteOperand
    return match use with
      | .value => some vacuousDeletion
      | .statement => none

/-- Lowers the node at `id` with `lower` for the expressions inside it. -/
def expressionNode (lower : Lowerer) (id : NodeId) : Node → LowerM Code
  | .number text => return .number (luaNumeral text)
  | .string s => return .string s
  | .boolean b => return .boolean b
  | .null | .undefined => return .nil
  | .identifier x => return .name (Lua.rename x)
  | .array elements => return arrayLiteral (← elements.mapM lower)
  | .object properties => do
    let context ← typeOf id
    objectLiteral lower properties context
  | .property receiver name => do readAccess (← namedAccess lower receiver name)
  | .element receiver key => do readAccess (← elementAccess lower receiver key)
  | .call callee arguments => call lower callee arguments
  | .binary left op right => binary lower left op right
  | .assign target op value =>
    return (← assignment? lower id target op value .value).getD .nil
  | .unary op operand => return .unary (luaUnary op) (← lower operand)
  | .update op before operand => return (← update? lower op before operand .value).getD .nil
  | .delete operand => return (← deletion? lower id operand .value).getD vacuousDeletion
  | .template head spans => template lower head spans
  | .asserted expression type => lowerInContext lower expression type
  | .parenthesized inner => lower inner
  | _ => do
    report id (.unsupportedSyntax "statement in expression position")
    return .nil

/-- Lowers an expression of at most `room` levels; what is nested more deeply is reported and becomes
`nil`. -/
def expressionAt : (room : Nat) → Lowerer
  | 0, id => do
    reportDepth id
    return .nil
  | room + 1, id => do
    match ← node? id with
    | some n => expressionNode (expressionAt room) id n
    | none => return .nil

/-- Lowers an expression. -/
def expression : Lowerer := expressionAt maxNesting

end ScriptToLua.Lowering
