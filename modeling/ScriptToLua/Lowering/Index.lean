import ScriptToLua.Lua.Numeral

/-!
From indices that count from zero to slots that count from one. Every index into an array goes
through `oneBased`, so that all accesses with one index meet in one slot.
-/

namespace ScriptToLua.Lowering

open Lua (Code)

/-- The integer constant one above an integer constant, if 64 bits hold it. -/
def successor? (index : Code) : Option Int :=
  (index.integer?.map (· + 1)).filter (· < (Nat.pow 2 63 : Nat))

/-- The slot for an index: one more, worked out at once for integer constants when `fold` is set. -/
def oneBased (fold : Bool) (index : Code) : Code :=
  match fold, successor? index with
  | true, some n => .integer n
  | _, _ => .binary index .add (.integer 1)

/-- `receiver[index + 1]` -/
def slotOf (fold : Bool) (receiver index : Code) : Code := .index receiver (oneBased fold index)

/-- Whether a string is an array index: decimal digits without leading zeros, at most fifteen. -/
def isIndexText (key : String) : Bool :=
  match key.toList with
  | [] => false
  | ['0'] => true
  | '0' :: _ => false
  | cs => cs.length < 16 && cs.all Char.isDigit

end ScriptToLua.Lowering
