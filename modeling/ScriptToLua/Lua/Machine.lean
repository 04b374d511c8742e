import ScriptToLua.Lua.Table

/-!
The state of running code: variables in scopes, tables, and how deep calls are nested. Closures and
values refer to scopes and tables by number, so all that can change is here.
-/

namespace ScriptToLua.Lua

/-- The variables of one block and their values. -/
abbrev Scope := OrderedMap String Value

structure Machine where
  globals : Scope
  scopes : Array Scope
  tables : Array Table
  /-- The number for the next closure. -/
  nextClosure : Nat
  /-- How many calls are under way. -/
  depth : Nat

namespace Machine

/-- The machine before any code has run. -/
def initial : Machine :=
  { globals := .ofList [("tostring", .builtin .tostring), ("type", .builtin .type)]
    scopes := #[]
    tables := #[]
    nextClosure := 0
    depth := 0 }

instance : Inhabited Machine := ⟨initial⟩

def scope (m : Machine) (id : ScopeId) : Scope := m.scopes[id]?.getD .empty

def table (m : Machine) (id : TableId) : Table := m.tables[id]?.getD .empty

/-- The innermost scope of a chain that declares `x`. -/
def owner? (m : Machine) (chain : Chain) (x : String) : Option ScopeId :=
  chain.find? fun id => (m.scope id).contains x

/-- The value of a variable: that of the innermost scope that declares it, or the global. -/
def lookup? (m : Machine) (chain : Chain) (x : String) : Option Value :=
  match m.owner? chain x with
  | some id => (m.scope id).get? x
  | none => m.globals.get? x

/-- Declares a variable in the innermost scope of a chain. -/
def declare (m : Machine) (chain : Chain) (x : String) (v : Value) : Machine :=
  match chain with
  | [] => { m with globals := m.globals.insert x v }
  | id :: _ => { m with scopes := m.scopes.modify id fun s => s.insert x v }

/-- Assigns to a variable where it is declared; an undeclared one becomes global. -/
def assign (m : Machine) (chain : Chain) (x : String) (v : Value) : Machine :=
  match m.owner? chain x with
  | some id => m.declare [id] x v
  | none => m.declare [] x v

def setTable (m : Machine) (id : TableId) (t : Table) : Machine :=
  { m with tables := m.tables.setIfInBounds id t }

/-- Declares names from left to right with values from left to right; names without a value are
`nil`. -/
def declareAll (m : Machine) (chain : Chain) : List String → List Value → Machine
  | [], _ => m
  | x :: xs, [] => (m.declare chain x .nil).declareAll chain xs []
  | x :: xs, v :: vs => (m.declare chain x v).declareAll chain xs vs

end Machine

/-- A computation on the machine. A fault leaves the machine as it is at that point. -/
abbrev EvalM := ExceptT Fault (StateM Machine)

namespace EvalM

def ofExcept {α : Type} : Except Fault α → EvalM α
  | .ok a => pure a
  | .error f => throw f

/-- Opens an empty scope inside a chain. -/
def openScope (chain : Chain) : EvalM Chain :=
  modifyGet fun m => (m.scopes.size :: chain, { m with scopes := m.scopes.push .empty })

def newTable : EvalM TableId :=
  modifyGet fun m => (m.tables.size, { m with tables := m.tables.push .empty })

def newClosure (parameters : List String) (body : List Code) (chain : Chain) : EvalM Value :=
  modifyGet fun m =>
    (.function ⟨m.nextClosure, parameters, body, chain⟩, { m with nextClosure := m.nextClosure + 1 })

def declare (chain : Chain) (x : String) (v : Value) : EvalM Unit :=
  modify fun m => m.declare chain x v

def setEntry (id : TableId) (key v : Value) : EvalM Unit := do
  let t ← ofExcept (((← get).table id).set key v)
  modify fun m => m.setTable id t

/-- What a table holds under a key. -/
def index (target key : Value) : EvalM Value := do
  match target with
  | .table id => return ((← get).table id).get key
  | v => throw (.notIndexable v.kind)

/-- Runs a computation one call deeper, and comes back up however it ends. -/
def nested {α : Type} (act : EvalM α) : EvalM α := fun m =>
  let (result, m') := act.run { m with depth := m.depth + 1 }
  (result, { m' with depth := m'.depth - 1 })

end EvalM

end ScriptToLua.Lua
