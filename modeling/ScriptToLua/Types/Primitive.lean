import ScriptToLua.Types.Store

/-!
Types all of whose values are strings, or all of whose values are numbers.
-/

namespace ScriptToLua

/-- Whether a type is a leaf with property `p`, a union of such types, or a parameter constrained to
one. There is no answer when the search needs more than `room` levels. -/
def madeOfAt (p : TypeData → Bool) (s : TypeStore) : (room : Nat) → TypeId → Option Bool
  | 0, _ => none
  | room + 1, t =>
    match s.get? t with
    | none => some false
    | some (.union []) => some false
    | some (.union members) => members.allM (madeOfAt p s room)
    | some (.parameter _ (some constraint)) => madeOfAt p s room constraint
    | some d => some (p d)

/-- A search that ends meets every stored type at most once on its way down. A type that contains
itself this way is made of nothing. -/
def madeOf (p : TypeData → Bool) (s : TypeStore) (t : TypeId) : Bool :=
  (madeOfAt p s (s.size + 1) t).getD false

namespace TypeData

def isString : TypeData → Bool
  | intrinsic .string => true
  | stringLiteral _ => true
  | _ => false

def isNumber : TypeData → Bool
  | intrinsic .number => true
  | numberLiteral _ => true
  | _ => false

end TypeData

/-- Whether all values of the type are strings. -/
def TypeStore.isStringLike (s : TypeStore) (t : TypeId) : Bool := madeOf TypeData.isString s t

/-- Whether all values of the type are numbers. -/
def TypeStore.isNumberLike (s : TypeStore) (t : TypeId) : Bool := madeOf TypeData.isNumber s t

end ScriptToLua
