import ScriptToLua.Source.Arena
import ScriptToLua.Types.Primitive
import ScriptToLua.Types.Shape

/-!
The types of expressions. What a type checker has recorded comes first; otherwise the syntax of the
expression and the declared types of its variables decide.
-/

namespace ScriptToLua

open Source (Arena Node NodeId BinaryOp)

/-- What a type checker has recorded about a file. -/
structure TypeFacts where
  nodes : OrderedMap NodeId TypeId
  /-- The declared types of variables and functions. -/
  names : OrderedMap String TypeId

namespace TypeFacts

def empty : TypeFacts := ⟨.empty, .empty⟩

def recordNode (f : TypeFacts) (id : NodeId) (t : TypeId) : TypeFacts :=
  { f with nodes := f.nodes.insert id t }

def declare (f : TypeFacts) (name : String) (t : TypeId) : TypeFacts :=
  { f with names := f.names.insert name t }

/-- The declared type of a name. -/
def declaredType (f : TypeFacts) (name : String) : TypeId := (f.names.get? name).getD .unknown

end TypeFacts

/-- How many levels of nested expressions are typed, and how many are lowered. -/
def maxNesting : Nat := 500

namespace Typing

/-- The type of a sum: a string if either side is one, a number if something is known of both. -/
def sumType (s : TypeStore) (left right : TypeId) : TypeId :=
  if s.isStringLike left || s.isStringLike right then .string
  else if left = .unknown ∨ right = .unknown then .unknown
  else .number

/-- The type of a binary expression; `typeOf` types its operands. -/
def binaryType (typeOf : NodeId → TypeM TypeId) (left : NodeId) (op : BinaryOp) (right : NodeId) :
    TypeM TypeId :=
  match op with
  | .add => do
    let l ← typeOf left
    let r ← typeOf right
    return sumType (← get) l r
  | .and | .or => do
    let l ← typeOf left
    let r ← typeOf right
    unionOf [l, r]
  | .sub | .mul | .div | .mod => return .number
  | .lt | .le | .gt | .ge | .eq | .ne => return .boolean

/-- The type of `receiver.name`. -/
def propertyType (shape : Shape) (name : String) : TypeId :=
  match shape.member? name with
  | some p => p.type
  | none => if name = "length" ∧ shape.isArrayLike then .number else .unknown

/-- The type of `receiver[key]`, where `key` is the node of the key. -/
def elementType (shape : Shape) (key : Option Node) : TypeId :=
  let member :=
    match key with
    | some (.string name) => shape.member? name
    | _ => none
  match member with
  | some p => p.type
  | none => shape.element?.getD .unknown

/-- The type that a call of a value of type `t` yields. -/
def resultType (s : TypeStore) (t : TypeId) : TypeId :=
  match s.get? t with
  | some (.function _ result) => result
  | _ => .unknown

/-- The type that the syntax of a node gives it; `typeOf` types its parts. -/
def nodeType (arena : Arena) (facts : TypeFacts) (typeOf : NodeId → TypeM TypeId) :
    Node → TypeM TypeId
  | .number _ | .update .. => return .number
  | .string _ | .template .. => return .string
  | .boolean _ | .delete _ => return .boolean
  | .null | .undefined => return .nil
  | .identifier name => return facts.declaredType name
  | .asserted _ type => return type
  | .parenthesized inner => typeOf inner
  | .assign _ _ value => typeOf value
  | .unary .minus _ => return .number
  | .unary .not _ => return .boolean
  | .binary left op right => binaryType typeOf left op right
  | .call callee _ => do
    let t ← typeOf callee
    return resultType (← get) t
  | .property receiver name => do
    let shape ← shapeOf (← typeOf receiver)
    return propertyType shape name
  | .element receiver key => do
    let shape ← shapeOf (← typeOf receiver)
    return elementType shape (arena.get? key)
  | _ => return .unknown

/-- The type of an expression that is looked into at most `room` levels deep. -/
def typeAt (arena : Arena) (facts : TypeFacts) : (room : Nat) → NodeId → TypeM TypeId
  | 0, id => return (facts.nodes.get? id).getD .unknown
  | room + 1, id =>
    match facts.nodes.get? id with
    | some t => return t
    | none =>
      match arena.get? id with
      | some n => nodeType arena facts (typeAt arena facts room) n
      | none => return .unknown

section Room

variable {arena : Arena} {facts : TypeFacts} {id : NodeId}

/-- What has been recorded does not depend on the syntax. -/
theorem typeAt_recorded {t : TypeId} (h : facts.nodes.get? id = some t) (room : Nat) :
    typeAt arena facts room id = pure t := by
  cases room with
  | zero =>
    rw [typeAt, h]
    rfl
  | succ room => simp only [typeAt, h]

theorem typeAt_node {n : Node} (hid : facts.nodes.get? id = none) (hn : arena.get? id = some n)
    (room : Nat) :
    typeAt arena facts (room + 1) id = nodeType arena facts (typeAt arena facts room) n := by
  simp only [typeAt, hid, hn]

end Room

end Typing

/-- The type of the expression at `id`. -/
def TypeFacts.expressionType (f : TypeFacts) (arena : Arena) (id : NodeId) : TypeM TypeId :=
  Typing.typeAt arena f maxNesting id

end ScriptToLua
