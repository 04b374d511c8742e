import ScriptToLua.OrderedMap
import ScriptToLua.Types.Store

/-!
How a value of a given type behaves under indexing: by numeric slots, by named members, by both on
one table, or by neither.
-/

namespace ScriptToLua

/-- Named members in the order of their declaration. -/
abbrev Members := OrderedMap String Property

inductive Shape where
  /-- Numeric slots only. -/
  | array (element : TypeId)
  /-- Named members only. -/
  | record (members : Members)
  /-- Numeric slots and named members on one table. -/
  | hybrid (element : TypeId) (members : Members)
  /-- Neither: primitives, functions and types about which nothing is known. -/
  | other

namespace Shape

/-- The type of the numeric slots. -/
def element? : Shape → Option TypeId
  | array element => some element
  | hybrid element _ => some element
  | _ => none

def isArrayLike (s : Shape) : Bool := s.element?.isSome

def isRecord : Shape → Bool
  | record _ => true
  | _ => false

/-- The named members, none for shapes without any. -/
def members : Shape → Members
  | record members => members
  | hybrid _ members => members
  | _ => .empty

def member? (s : Shape) (name : String) : Option Property := s.members.get? name

/-- An array, with named members beside the slots if there are any. -/
def arrayWith (element : TypeId) (members : Members) : Shape :=
  if members.isEmpty then array element else hybrid element members

end Shape

/-- The members that a list of properties declares; the last of one name counts. -/
def declared (properties : List Property) : Members :=
  .ofList (properties.map fun p => (p.name, p))

/-- The members of all shapes, those of later shapes over those of earlier ones. -/
def inherited (shapes : List Shape) : Members :=
  shapes.foldl (fun members s => members.insertAll s.members.entries) .empty

/-- The members of the first shape that all other shapes have too. -/
def common : List Shape → Members
  | [] => .empty
  | first :: rest => first.members.filter fun name => rest.all fun s => (s.member? name).isSome

/-- One type for slots that may hold any of the types `ts`. -/
def joinElements : List TypeId → TypeM TypeId
  | [] => pure .unknown
  | [t] => pure t
  | ts => unionOf ts

/-- A union indexes like an array, or like a record, only if every member does. -/
def unionShape (shapes : List Shape) : TypeM Shape :=
  if shapes.all Shape.isArrayLike then do
    let element ← joinElements (shapes.filterMap Shape.element?)
    return .arrayWith element (common shapes)
  else if shapes.all Shape.isRecord then return .record (common shapes)
  else return .other

/-- An intersection has the slots of its array-like members and the names of all its members. -/
def intersectionShape (shapes : List Shape) : TypeM Shape :=
  match shapes.filterMap Shape.element? with
  | [] => return if shapes.any Shape.isRecord then .record (inherited shapes) else .other
  | elements => do
    let element ← joinElements elements
    return .arrayWith element (inherited shapes)

/-- An interface adds its own properties to what it inherits; its slots are those of its bases. -/
def interfaceShape (bases : List Shape) (properties : List Property) : TypeM Shape := do
  let members := (inherited bases).insertAll (declared properties).entries
  match bases.filterMap Shape.element? with
  | [] => return .record members
  | elements =>
    let element ← joinElements elements
    return .arrayWith element members

/-- The shape of a type whose nested types are looked into at most `room` levels deep. -/
def shapeAt : (room : Nat) → TypeId → TypeM Shape
  | 0, _ => return .other
  | room + 1, t => do
    match (← get).get? t with
    | some (.array element) => return .array element
    | some (.tuple []) => return .array .unknown
    | some (.tuple elements) => return .array (← unionOf elements)
    | some (.object properties) => return .record (declared properties)
    | some (.union members) => unionShape (← members.mapM (shapeAt room))
    | some (.intersection members) => intersectionShape (← members.mapM (shapeAt room))
    | some (.interface _ bases properties) =>
      interfaceShape (← bases.mapM (shapeAt room)) properties
    | some (.parameter _ (some constraint)) => shapeAt room constraint
    | _ => return .other

/-- How many levels of nested types a shape takes into account. -/
def maxShapeDepth : Nat := 64

/-- The shape of a type. The union of its element types may be stored on the way. -/
def shapeOf (t : TypeId) : TypeM Shape := shapeAt maxShapeDepth t

end ScriptToLua
