/-!
Resolved types. A type is stored once and is referred to by its id; type data mentions other types
by id only.
-/

namespace ScriptToLua

/-- Names a stored type by its position in the store. -/
structure TypeId where
  index : Nat
  deriving DecidableEq, Repr, Inhabited

inductive Intrinsic where
  | unknown | any | never | number | string | boolean | nil
  deriving DecidableEq, Repr

namespace Intrinsic

/-- The intrinsic types in the order in which every store begins. -/
def all : List Intrinsic := [unknown, any, never, number, string, boolean, nil]

end Intrinsic

namespace TypeId

/-- The type of an expression about which nothing is known. -/
def unknown : TypeId := ⟨0⟩
def any : TypeId := ⟨1⟩
def never : TypeId := ⟨2⟩
def number : TypeId := ⟨3⟩
def string : TypeId := ⟨4⟩
def boolean : TypeId := ⟨5⟩
/-- The type of every absent value. -/
def nil : TypeId := ⟨6⟩

def isIntrinsic (t : TypeId) : Bool := t.index < Intrinsic.all.length

end TypeId

/-- A named member of a record type. Calls through a method pass the receiver along. -/
structure Property where
  name : String
  type : TypeId
  optional : Bool := false
  isMethod : Bool := false
  deriving DecidableEq, Repr

/-- What a stored type is. Literal types keep their source text. -/
inductive TypeData where
  | intrinsic (kind : Intrinsic)
  | stringLiteral (value : String)
  | numberLiteral (text : String)
  | array (element : TypeId)
  | tuple (elements : List TypeId)
  | union (members : List TypeId)
  | intersection (members : List TypeId)
  | object (properties : List Property)
  | interface (name : String) (bases : List TypeId) (properties : List Property)
  | parameter (name : String) (constraint : Option TypeId)
  | function (parameters : List TypeId) (result : TypeId)
  deriving DecidableEq, Repr

end ScriptToLua
