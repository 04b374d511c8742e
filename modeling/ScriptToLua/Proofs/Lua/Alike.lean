import Mathlib
import ScriptToLua.Lua.Operation
import ScriptToLua.Lua.Table
import ScriptToLua.Proofs.OrderedMap

/-!
Values that look the same to every operator. Functions show their number and nothing else, so what
differs in their bodies or in their scopes is seen by calls only.
-/

namespace ScriptToLua.Lua

/-- Values that at most a call tells apart. -/
inductive Value.Alike : Value → Value → Prop where
  | same (v : Value) : Alike v v
  | functions {f g : Closure} (h : f.id = g.id) : Alike (.function f) (.function g)

namespace Value.Alike

variable {v v' w w' : Value}

theorem isTruthy (h : v.Alike v') : v.isTruthy = v'.isTruthy := by
  cases h <;> rfl

theorem isNil (h : v.Alike v') : v.isNil = v'.isNil := by
  cases h <;> rfl

theorem kind (h : v.Alike v') : v.kind = v'.kind := by
  cases h <;> rfl

theorem text (h : v.Alike v') : v.text = v'.text := by
  cases h with
  | same => rfl
  | functions h => simp only [Value.text, h]

theorem key (h : v.Alike v') : Key.ofValue v = Key.ofValue v' := by
  cases h with
  | same => rfl
  | functions h => simp only [Key.ofValue, h]

theorem rawEq (h : v.Alike v') (hw : w.Alike w') : v.rawEq w = v'.rawEq w' := by
  cases h with
  | same =>
    cases hw with
    | same => rfl
    | functions hw =>
      cases v with
      | function f => simp only [Value.rawEq, hw]
      | _ => rfl
  | functions h =>
    cases hw with
    | same =>
      cases w with
      | function g => simp only [Value.rawEq, h]
      | _ => rfl
    | functions hw => simp only [Value.rawEq, h, hw]

theorem arithmetic (h : v.Alike v') : v.arithmetic? = v'.arithmetic? := by
  cases h <;> rfl

theorem concatText (h : v.Alike v') : v.concatText? = v'.concatText? := by
  cases h <;> rfl

theorem compare (op : BinaryOp) (h : v.Alike v') (hw : w.Alike w') :
    op.compare v w = op.compare v' w' := by
  cases h with
  | same =>
    cases hw with
    | same => rfl
    | functions => cases v <;> rfl
  | functions => cases hw <;> rfl

theorem settledBy (op : BinaryOp) (h : v.Alike v') : op.settledBy v = op.settledBy v' := by
  simp only [BinaryOp.settledBy, h.isTruthy]

/-- All operators but `or` and `and`, which choose one of their operands, give the same. -/
theorem apply {op : BinaryOp} (ho : op ≠ .or) (ha : op ≠ .and) (h : v.Alike v')
    (hw : w.Alike w') : op.apply v w = op.apply v' w' := by
  cases op with
  | or => exact absurd rfl ho
  | and => exact absurd rfl ha
  | eq | ne => simp only [BinaryOp.apply, h.rawEq hw]
  | lt | gt | le | ge => exact h.compare _ hw
  | concat => simp only [BinaryOp.apply, h.concatText, hw.concatText]
  | add | sub | mul | div | mod | pow => simp only [BinaryOp.apply, h.arithmetic, hw.arithmetic]

theorem builtin (b : Builtin) {args args' : List Value} (h : List.Forall₂ Alike args args') :
    b.apply args = b.apply args' := by
  have hv : (args.head?.getD .nil).Alike (args'.head?.getD .nil) := by
    cases h with
    | nil => exact .same _
    | cons hv _ => exact hv
  cases b with
  | tostring => simp only [Builtin.apply, hv.text]
  | type => simp only [Builtin.apply, hv.kind]

end Value.Alike

/-- No operator makes a function of what is none. -/
theorem BinaryOp.apply_ne_function {op : BinaryOp} (ho : op ≠ .or) (ha : op ≠ .and)
    {a b v : Value} (h : op.apply a b = .ok v) (f : Closure) : v ≠ .function f := by
  rintro rfl
  cases op with
  | or => exact ho rfl
  | and => exact ha rfl
  | eq | ne => cases h
  | lt | gt | le | ge => cases a <;> cases b <;> cases h
  | concat =>
    simp only [BinaryOp.apply] at h
    generalize a.concatText? = s, b.concatText? = t at h
    cases s <;> cases t <;> cases h
  | add | sub | mul | div | mod | pow =>
    simp only [BinaryOp.apply] at h
    generalize a.arithmetic? = x, b.arithmetic? = y at h
    cases x <;> cases y <;> cases h

/-- The length of a table depends on its keys alone. -/
theorem Table.border_congr {V : Value → Value → Prop} {t t' : Table}
    (h : OrderedMap.Pairs V t t') : t.border = t'.border := by
  have hfrom (room n : Nat) : t.borderFrom room n = t'.borderFrom room n := by
    induction room generalizing n with
    | zero => rfl
    | succ room ih => simp only [Table.borderFrom, h.contains, ih]
  simp only [Table.border, h.size, hfrom]

end ScriptToLua.Lua
