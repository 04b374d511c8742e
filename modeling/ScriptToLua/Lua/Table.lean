import ScriptToLua.OrderedMap
import ScriptToLua.Lua.Value

/-!
Tables: finite maps from keys to values other than `nil`. Numbers that are equal are one key.
-/

namespace ScriptToLua.Lua

/-- What a value looks up in a table. -/
inductive Key where
  /-- An integral number below 9 * 10^15. -/
  | int (n : Int)
  /-- Any other number, by its bits. -/
  | float (bits : UInt64)
  | string (s : String)
  | boolean (b : Bool)
  | table (id : TableId)
  | function (id : Nat)
  deriving DecidableEq, Repr

/-- The key of a number. -/
def Key.ofFloat (x : Float) : Key :=
  match (Decimal.Real.ofFloat x).integer? with
  | some n => if n.natAbs < 9000000000000000 then int n else float x.toBits
  | none => float x.toBits

/-- The key of a value; `nil` and NaN have none. A builtin shares its key with the string that is its
name after `builtin:`. -/
def Key.ofValue : Value → Except Fault Key
  | .nil => .error .nilKey
  | .boolean b => .ok (boolean b)
  | .number x => if x.isNaN then .error .nanKey else .ok (ofFloat x)
  | .string s => .ok (string s)
  | .table id => .ok (table id)
  | .function f => .ok (function f.id)
  | .builtin b => .ok (string ("builtin:" ++ b.name))

abbrev Table := OrderedMap Key Value

namespace Table

def empty : Table := OrderedMap.empty

/-- The value under a key, `nil` if there is none. -/
def read (t : Table) (k : Key) : Value := (t.get? k).getD .nil

/-- Writes a value under a key; writing `nil` removes the key. -/
def write (t : Table) (k : Key) (v : Value) : Table :=
  if v.isNil then t.erase k else t.insert k v

/-- The value that another value looks up. -/
def get (t : Table) (key : Value) : Value :=
  match Key.ofValue key with
  | .ok k => t.read k
  | .error _ => .nil

def set (t : Table) (key v : Value) : Except Fault Table := do
  let k ← Key.ofValue key
  return t.write k v

/-- Goes on from slot `n` over at most `room` slots that hold a value. -/
def borderFrom (t : Table) : (room : Nat) → (n : Nat) → Nat
  | 0, n => n
  | room + 1, n =>
    if t.contains (.int (n + 1 : Nat)) then borderFrom t room (n + 1) else n

/-- The largest `n` such that the slots from 1 to `n` all hold a value. A table has no more such
slots than entries. -/
def border (t : Table) : Nat := t.borderFrom t.size 0

end Table

end ScriptToLua.Lua
