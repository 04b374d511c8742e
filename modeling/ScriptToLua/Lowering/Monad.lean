import ScriptToLua.Diagnostic
import ScriptToLua.Typing

/-!
What a lowering reads and what it changes on its way through a file.
-/

namespace ScriptToLua.Lowering

open Source (Arena Node NodeId)

/-- What stays the same for a whole file. -/
structure Context where
  arena : Arena
  facts : TypeFacts
  /-- Whether slots for constant indices are worked out at once. -/
  fold : Bool
  /-- The name that diagnostics give to the file. -/
  file : String

structure State where
  store : TypeStore
  /-- The diagnostics so far, the last one first. -/
  reported : List Diagnostic
  /-- Whether an expression that is nested too deeply has been reported. -/
  depthReported : Bool

abbrev LowerM := ReaderT Context (StateM State)

def node? (id : NodeId) : LowerM (Option Node) := return (← read).arena.get? id

/-- Runs a computation on the type store. -/
def withTypes {α : Type} (act : TypeM α) : LowerM α :=
  modifyGet fun s =>
    let (a, store) := act s.store
    (a, { s with store })

/-- Asks the type store. -/
def askTypes {α : Type} (ask : TypeStore → α) : LowerM α := return ask (← get).store

def typeOf (id : NodeId) : LowerM TypeId := do
  let c ← read
  withTypes (c.facts.expressionType c.arena id)

/-- Reports a problem at a node. -/
def report (id : NodeId) (p : Problem) : LowerM Unit := do
  let c ← read
  let span := c.arena.span id
  let d := Diagnostic.ofMessage c.file span.start span.length p.message p.details
  modify fun s => { s with reported := d :: s.reported }

/-- Reports that an expression is nested too deeply, once for a file. -/
def reportDepth (id : NodeId) : LowerM Unit := do
  if !(← get).depthReported then
    modify fun s => { s with depthReported := true }
    report id .tooDeep

end ScriptToLua.Lowering
