import ScriptToLua.Lowering.Index
import ScriptToLua.Lowering.Place
import ScriptToLua.Lua.Name
import ScriptToLua.Types.Primitive
import ScriptToLua.Types.Shape

/-!
Property and element accesses. On array-like receivers an access lands in a slot, in a named field
or on the length; on all others it is a plain table access.
-/

namespace ScriptToLua.Lowering

open Lua (Code)

inductive AccessKey where
  /-- `receiver.name` -/
  | named (name : String)
  /-- `receiver[index]` together with the type of the index. -/
  | element (index : Code) (type : TypeId)

/-- An access whose operands have been lowered already. -/
structure Access where
  receiver : Code
  key : AccessKey
  shape : Shape

/-- Where an access to an array-like receiver lands. -/
inductive Landing where
  | place (p : Place)
  | length

namespace Access

def ofType (receiver : Code) (key : AccessKey) (type : TypeId) : TypeM Access := do
  return ⟨receiver, key, ← shapeOf type⟩

/-- The member of the receiver's shape that the access names. -/
def member? (a : Access) : Option Property :=
  match a.key with
  | .named name => a.shape.member? name
  | .element (.string name) _ => a.shape.member? name
  | .element _ _ => none

/-- The access as it reads in the source: `receiver.name` or `receiver[index]`. -/
def plain (a : Access) : Place :=
  match a.key with
  | .named name => .field a.receiver name
  | .element index _ => .entry a.receiver index

/-- Where `receiver.name` lands: on a declared member or on the length. -/
def landNamed (a : Access) (name : String) : Option Landing :=
  if (a.shape.member? name).isSome then some (.place (.field a.receiver name))
  else if name = "length" then some .length
  else none

/-- Where `receiver["name"]` lands: in a slot, on the length or in a field. -/
def landString (fold : Bool) (a : Access) (name : String) : Landing :=
  if isIndexText name then .place (.entry a.receiver (oneBased fold (.number name)))
  else if name = "length" ∧ a.shape.member? name = none then .length
  else .place (.field a.receiver name)

/-- Where `receiver[index]` lands: in the field that a computed string names, or in a slot. -/
def landComputed (s : TypeStore) (fold : Bool) (a : Access) (index : Code) (type : TypeId) :
    Landing :=
  if s.isStringLike type then .place (.entry a.receiver index)
  else .place (.entry a.receiver (oneBased fold index))

/-- Where the access lands, if the receiver is array-like and the access is more than a plain one. -/
def landing? (s : TypeStore) (fold : Bool) (a : Access) : Option Landing :=
  if a.shape.isArrayLike then
    match a.key with
    | .named name => a.landNamed name
    | .element (.string name) _ => some (a.landString fold name)
    | .element index type => some (a.landComputed s fold index type)
  else none

/-- The value of the access, unless it is a plain one. -/
def read? (s : TypeStore) (fold : Bool) (a : Access) : Option Code :=
  (a.landing? s fold).map fun
    | .place p => p.code
    | .length => .unary .len a.receiver

/-- Whether the access is the length of an array, which cannot be assigned. -/
def isLength (s : TypeStore) (fold : Bool) (a : Access) : Bool :=
  match a.landing? s fold with
  | some .length => true
  | _ => false

/-- The place of the access, unless it is a plain one or the length. -/
def place? (s : TypeStore) (fold : Bool) (a : Access) : Option Place :=
  match a.landing? s fold with
  | some (.place p) => some p
  | _ => none

/-- The deletion of the accessed slot or field, unless the access is a plain one. -/
def delete? (s : TypeStore) (fold : Bool) (a : Access) (use : Use) : Option Code :=
  (a.place? s fold).map fun p => deletion p.code use

def read (s : TypeStore) (fold : Bool) (a : Access) : Code :=
  (a.read? s fold).getD a.plain.code

def place (s : TypeStore) (fold : Bool) (a : Access) : Place := (a.place? s fold).getD a.plain

def delete (s : TypeStore) (fold : Bool) (a : Access) (use : Use) : Code :=
  deletion (a.place s fold).code use

end Access

/-- Calls a member. A method receives its receiver: by a colon call, or by hand where its name has
no colon call. Any other member is called plainly. -/
def callMember (receiver : Code) (name : String) (member : Option Property)
    (args : List Code) : Code :=
  if !(member.any Property.isMethod) then .call (.member receiver name) args
  else if Lua.isName name then .invoke receiver name args
  else if receiver.isPure then .call (.member receiver name) (receiver :: args)
  else
    .immediate [.bindLocal objectTemp receiver,
      .yields (.call (.member (.name objectTemp) name) (.name objectTemp :: args))]

/-- The call of a declared member of an array-like receiver. -/
def Access.methodCall? (a : Access) (args : List Code) : Option Code :=
  match a.key with
  | .named name =>
    if a.shape.isArrayLike then
      (a.shape.member? name).map fun m => callMember a.receiver name (some m) args
    else none
  | .element _ _ => none

end ScriptToLua.Lowering
