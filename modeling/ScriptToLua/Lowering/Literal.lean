import ScriptToLua.Lowering.Index

/-!
Table constructors for array literals and for object literals that stand for arrays.
-/

namespace ScriptToLua.Lowering

open Lua (Code Field)

/-- A property of an object literal that stands for an array. -/
inductive HybridProperty where
  /-- An array index, counting from zero. -/
  | slot (index value : Code)
  | named (name : String) (value : Code)
  /-- Any other key, used as it is. -/
  | keyed (key value : Code)

def HybridProperty.field (fold : Bool) : HybridProperty → Field
  | slot index value => .keyed (oneBased fold index) value
  | named name value => .named name value
  | keyed key value => .keyed key value

/-- The table that holds the elements in the slots from 1 on. -/
def arrayLiteral (elements : List Code) : Code := .table (elements.map Field.item)

/-- The table that holds slots and named fields side by side. -/
def hybridLiteral (fold : Bool) (properties : List HybridProperty) : Code :=
  .table (properties.map (HybridProperty.field fold))

end ScriptToLua.Lowering
