import ScriptToLua.Lowering.Expression

/-!
Lowering of statements. A statement gives any number of Lua statements; a return that is not the
last statement of its block gets a block of its own, because Lua allows it nowhere else.
-/

namespace ScriptToLua.Lowering

open Lua (Code)
open Source (Node NodeId)

/-- Takes the value of an expression that stands as a statement. -/
def discardName : String := "____"

/-- Wraps every return but the last statement. -/
def sealReturns : List Code → List Code
  | [] => []
  | [c] => [c]
  | c :: rest => (if c.isReturn then .block [c] else c) :: sealReturns rest

/-- An expression as a statement: calls stand as they are, and other values are bound to a name that
nobody reads. -/
def asStatement (value : Code) : Code :=
  if value.isCall then .perform value else .bindLocal discardName value

/-- Lowers an expression statement. Assignments, updates and deletions need no value here. -/
def expressionStatement (id : NodeId) : LowerM (List Code) := do
  let arena := (← read).arena
  let inner := arena.strip id
  match arena.get? inner with
  | none => return []
  | some (.assign target op value) =>
    return (← assignment? expression inner target op value .statement).toList
  | some (.update op before operand) =>
    return (← update? expression op before operand .statement).toList
  | some (.delete operand) => return (← deletion? expression inner operand .statement).toList
  | some _ => return [asStatement (← expression inner)]

/-- Lowers the statements of a block in order. -/
def statements (lower : NodeId → LowerM (List Code)) (ids : List NodeId) : LowerM (List Code) := do
  return sealReturns (← ids.mapM lower).flatten

/-- The value that a variable starts with. -/
def initialValue (name : String) (initializer : NodeId) : LowerM Code := do
  lowerInContext expression initializer ((← read).facts.declaredType name)

/-- Lowers the node at `id` as a statement with `lower` for the statements inside it. -/
def statementNode (lower : NodeId → LowerM (List Code)) (id : NodeId) :
    Node → LowerM (List Code)
  | .variableDecl name none => return [.locals [Lua.rename name] []]
  | .variableDecl name (some initializer) =>
    return [.bindLocal (Lua.rename name) (← initialValue name initializer)]
  | .ambientDecl _ => return []
  | .functionDecl name parameters body => do
    let body ← statements lower body
    return [.localFunction (Lua.rename name) (parameters.map Lua.rename) body]
  | .block ids => return [.block (← statements lower ids)]
  | .expressionStatement e => expressionStatement e
  | .returns none => return [.returns []]
  | .returns (some value) => return [.yields (← expression value)]
  | .file _ ids => statements lower ids
  | _ => do
    report id (.unsupportedSyntax "expression in statement position")
    return []

/-- Lowers a statement in which at most `room` further statements are nested. -/
def statementAt : (room : Nat) → NodeId → LowerM (List Code)
  | 0, _ => return []
  | room + 1, id => do
    match ← node? id with
    | some n => statementNode (statementAt room) id n
    | none => return []

/-- Lowers the tree under `root`. No chain of different statements is longer than the arena. -/
def chunk (root : NodeId) : LowerM (List Code) := do
  statementAt (← read).arena.size root

end ScriptToLua.Lowering
