import ScriptToLua.Types.Basic

/-!
Source nodes as a front end hands them over. A node refers to other nodes by their position in an
arena.
-/

namespace ScriptToLua.Source

/-- Names a node by its position in an arena. -/
structure NodeId where
  index : Nat
  deriving DecidableEq, Repr, Inhabited

/-- Stands where no node is. -/
def NodeId.absent : NodeId := ⟨Nat.pow 2 32 - 1⟩

inductive BinaryOp where
  | add | sub | mul | div | mod
  | lt | le | gt | ge | eq | ne
  | and | or
  deriving DecidableEq, Repr

namespace BinaryOp

def all : List BinaryOp := [add, sub, mul, div, mod, lt, le, gt, ge, eq, ne, and, or]

def text : BinaryOp → String
  | add => "+"
  | sub => "-"
  | mul => "*"
  | div => "/"
  | mod => "%"
  | lt => "<"
  | le => "<="
  | gt => ">"
  | ge => ">="
  | eq => "==="
  | ne => "!=="
  | and => "&&"
  | or => "||"

end BinaryOp

/-- Plain assignment and the arithmetic compound assignments. -/
inductive AssignOp where
  | plain | add | sub | mul | div | mod
  deriving DecidableEq, Repr

namespace AssignOp

def all : List AssignOp := [plain, add, sub, mul, div, mod]

def text : AssignOp → String
  | plain => "="
  | add => "+="
  | sub => "-="
  | mul => "*="
  | div => "/="
  | mod => "%="

/-- The operator that a compound assignment applies. -/
def binary? : AssignOp → Option BinaryOp
  | plain => none
  | add => some .add
  | sub => some .sub
  | mul => some .mul
  | div => some .div
  | mod => some .mod

end AssignOp

inductive UnaryOp where
  | minus | not
  deriving DecidableEq, Repr

inductive UpdateOp where
  | increment | decrement
  deriving DecidableEq, Repr

/-- The key of a property in an object literal; numeric keys keep their source text. -/
inductive Key where
  | name (name : String)
  | string (value : String)
  | number (text : String)
  | computed (key : NodeId)
  deriving DecidableEq, Repr

inductive Node where
  | number (text : String)
  | string (value : String)
  | boolean (value : Bool)
  | null
  | undefined
  | identifier (name : String)
  | array (elements : List NodeId)
  | object (properties : List (Key × NodeId))
  /-- `receiver.name` -/
  | property (receiver : NodeId) (name : String)
  /-- `receiver[key]` -/
  | element (receiver key : NodeId)
  | call (callee : NodeId) (arguments : List NodeId)
  | binary (left : NodeId) (op : BinaryOp) (right : NodeId)
  | assign (target : NodeId) (op : AssignOp) (value : NodeId)
  | unary (op : UnaryOp) (operand : NodeId)
  /-- `++x` when `before` is set, `x++` otherwise, and the same with `--`. -/
  | update (op : UpdateOp) (before : Bool) (operand : NodeId)
  | delete (operand : NodeId)
  /-- A template: its first text, then expressions each followed by a text. -/
  | template (head : String) (spans : List (NodeId × String))
  /-- `expression as type` -/
  | asserted (expression : NodeId) (type : TypeId)
  | parenthesized (inner : NodeId)
  | variableDecl (name : String) (initializer : Option NodeId)
  /-- `declare const name`, which declares without producing code. -/
  | ambientDecl (name : String)
  | expressionStatement (expression : NodeId)
  | returns (value : Option NodeId)
  | block (statements : List NodeId)
  | functionDecl (name : String) (parameters : List String) (body : List NodeId)
  | file (name : String) (statements : List NodeId)
  deriving DecidableEq, Repr

/-- Whether the node stands where statements stand. -/
def Node.isStatement : Node → Bool
  | variableDecl .. => true
  | ambientDecl .. => true
  | expressionStatement .. => true
  | returns .. => true
  | block .. => true
  | functionDecl .. => true
  | file .. => true
  | _ => false

end ScriptToLua.Source
