import ScriptToLua.Lua.Syntax

/-!
Places that code writes to, and the code for writes, updates and deletions. A write that would
evaluate part of its place twice, or that another operand could move, keeps the parts of the place
in local variables first; where the written value is needed, all of it runs in a function that is
called at once.
-/

namespace ScriptToLua.Lowering

open Lua (Code BinaryOp)

/-- Holds the table of a place. -/
def objectTemp : String := "____obj"

/-- Holds the key of a place. -/
def indexTemp : String := "____index"

/-- Holds a written value, or the value before an update. -/
def valueTemp : String := "____value"

/-- Whether the surrounding code needs the value. -/
inductive Use where
  | statement | value
  deriving DecidableEq, Repr

/-- Which value an update yields: that before it or that after it. -/
inductive Yield where
  | old | new
  deriving DecidableEq, Repr

/-- What can stand on the left of an assignment. -/
inductive Place where
  | variable (name : String)
  /-- `table.name` -/
  | field (table : Code) (name : String)
  /-- `table[key]` -/
  | entry (table key : Code)

namespace Place

/-- The place as an expression. -/
def code : Place → Code
  | .variable name => .name name
  | .field table name => .member table name
  | .entry table key => .index table key

/-- Keeps the value of `e` in the local variable `temp` if evaluating `e` again could differ; with
`pin`, if any other code in between could change it. -/
def keep (temp : String) (pin : Bool) (e : Code) : List Code × Code :=
  if !e.isPure || (pin && !e.isLiteral) then ([.bindLocal temp e], .name temp) else ([], e)

/-- The statements that keep the parts of a place, and the place made of what they keep. -/
def settle (pin : Bool) : Place → List Code × Place
  | .variable name => ([], .variable name)
  | .field table name =>
    let (before, table) := keep objectTemp pin table
    (before, .field table name)
  | .entry table key =>
    let (before, table) := keep objectTemp pin table
    let (between, key) := keep indexTemp pin key
    (before ++ between, .entry table key)

/-- The value that is written: `value`, or the result of `op` on the old value and `value`. -/
def newValue (p : Place) (op : Option BinaryOp) (value : Code) : Code :=
  match op with
  | none => value
  | some op => .binary p.code op value

/-- `place = value` or `place op= value`. -/
def assign (p : Place) (op : Option BinaryOp) (value : Code) : Use → Code
  | .statement =>
    let (before, p) := if op.isSome then p.settle false else ([], p)
    let write := .store p.code (p.newValue op value)
    if before.isEmpty then write else .block (before ++ [write])
  | .value =>
    let (before, p) := p.settle (!value.isPure)
    .immediate (before ++
      [.bindLocal valueTemp (p.newValue op value), .store p.code (.name valueTemp),
        .yields (.name valueTemp)])

/-- Adds one to a place or, with `op` for subtraction, takes one away. -/
def update (p : Place) (op : BinaryOp) (yield : Yield) (use : Use) : Code :=
  match yield, use with
  | .old, .value =>
    let (before, p) := p.settle false
    .immediate (before ++
      [.bindLocal valueTemp p.code, .store p.code (.binary (.name valueTemp) op (.integer 1)),
        .yields (.name valueTemp)])
  | _, use => p.assign (some op) (.integer 1) use

end Place

/-- Clears a slot. As a value the deletion is true. -/
def deletion (slot : Code) : Use → Code
  | .statement => .store slot .nil
  | .value => .immediate [.store slot .nil, .yields (.boolean true)]

/-- The value of a deletion whose operand is no property. -/
def vacuousDeletion : Code := .boolean true

end ScriptToLua.Lowering
