import Mathlib
import ScriptToLua.Lowering.Place
import ScriptToLua.Proofs.Lua.Alike
import ScriptToLua.Proofs.Lua.Scoping
import ScriptToLua.Proofs.Lua.Variables
import ScriptToLua.Proofs.OrderedMap

/-!
Two ways to write the slots of one program: worked out beforehand, or as a sum that running code
computes. A block that has to keep the table and the key of a place keeps the sum in a local variable
and leaves the constant where it is, so the two programs differ in statements and in variables too.
-/

namespace ScriptToLua.Lua

open Lowering (indexTemp)

/-- The numeral `slot` denotes one more than the numeral `index`. -/
def Succeeds (slot index : String) : Prop :=
  ∃ x, floatOf? index = some x ∧ floatOf? slot = some (x + Float.ofNat 1)

/-- What a block of statements keeps of the key of a place. -/
inductive Pin where
  /-- Neither program keeps the key. -/
  | free
  /-- Both programs keep it. -/
  | shared
  /-- Only the program that computes its slots keeps it, and it is the number of this numeral. -/
  | fixed (slot : String)

mutual

/-- The same code up to slots, which the first writes as constants and the second as sums. -/
inductive Code.Folds : Pin → Code → Code → Prop where
  | nil {pin : Pin} : Code.Folds pin .nil .nil
  | boolean {pin : Pin} (b : Bool) : Code.Folds pin (.boolean b) (.boolean b)
  | number {pin : Pin} (text : String) : Code.Folds pin (.number text) (.number text)
  | string {pin : Pin} (s : String) : Code.Folds pin (.string s) (.string s)
  | name {pin : Pin} {x : String} (hx : x ≠ indexTemp) : Code.Folds pin (.name x) (.name x)
  | slot {pin : Pin} {slot index : String} (h : Succeeds slot index) :
    Code.Folds pin (.number slot) (.binary (.number index) .add (.integer 1))
  | kept : Code.Folds .shared (.name indexTemp) (.name indexTemp)
  | pinned (slot : String) : Code.Folds (.fixed slot) (.number slot) (.name indexTemp)
  | index {pin : Pin} {t t' k k' : Code} (ht : Code.Folds pin t t') (hk : Code.Folds pin k k') :
    Code.Folds pin (.index t k) (.index t' k')
  | member {pin : Pin} {t t' : Code} (ht : Code.Folds pin t t') (x : String) :
    Code.Folds pin (.member t x) (.member t' x)
  | call {pin : Pin} {e e' : Code} {as as' : List Code} (he : Code.Folds pin e e')
    (ha : Code.FoldAll pin as as') : Code.Folds pin (.call e as) (.call e' as')
  | invoke {pin : Pin} {e e' : Code} {as as' : List Code} (he : Code.Folds pin e e') (x : String)
    (ha : Code.FoldAll pin as as') : Code.Folds pin (.invoke e x as) (.invoke e' x as')
  | binary {pin : Pin} {l l' r r' : Code} (hl : Code.Folds pin l l') (op : BinaryOp)
    (hr : Code.Folds pin r r') : Code.Folds pin (.binary l op r) (.binary l' op r')
  | unary {pin : Pin} {e e' : Code} (op : UnaryOp) (he : Code.Folds pin e e') :
    Code.Folds pin (.unary op e) (.unary op e')
  | table {pin : Pin} {fs fs' : List Field} (hf : Field.FoldAll pin fs fs') :
    Code.Folds pin (.table fs) (.table fs')
  | function {pin : Pin} {xs : List String} {b b' : List Code} (hb : Code.BlockFolds .free b b') :
    Code.Folds pin (.function xs b) (.function xs b')
  | paren {pin : Pin} {e e' : Code} (he : Code.Folds pin e e') : Code.Folds pin (.paren e) (.paren e')
  | locals {pin : Pin} {xs : List String} {es es' : List Code} (hx : pin = .free ∨ indexTemp ∉ xs)
    (he : Code.FoldAll pin es es') : Code.Folds pin (.locals xs es) (.locals xs es')
  | localFunction {pin : Pin} {x : String} {xs : List String} {b b' : List Code}
    (hx : pin = .free ∨ x ≠ indexTemp) (hb : Code.BlockFolds .free b b') :
    Code.Folds pin (.localFunction x xs b) (.localFunction x xs b')
  | assign {pin : Pin} {ts ts' es es' : List Code} (ht : Code.FoldAll pin ts ts')
    (hx : Code.name indexTemp ∉ ts') (he : Code.FoldAll pin es es') :
    Code.Folds pin (.assign ts es) (.assign ts' es')
  | perform {pin : Pin} {e e' : Code} (he : Code.Folds pin e e') :
    Code.Folds pin (.perform e) (.perform e')
  | returns {pin : Pin} {es es' : List Code} (he : Code.FoldAll pin es es') :
    Code.Folds pin (.returns es) (.returns es')
  | block {pin : Pin} {b b' : List Code} (hb : Code.BlockFolds .free b b') :
    Code.Folds pin (.block b) (.block b')

inductive Code.FoldAll : Pin → List Code → List Code → Prop where
  | nil {pin : Pin} : Code.FoldAll pin [] []
  | cons {pin : Pin} {e e' : Code} {es es' : List Code} (h : Code.Folds pin e e')
    (hr : Code.FoldAll pin es es') : Code.FoldAll pin (e :: es) (e' :: es')

inductive Field.FoldAll : Pin → List Field → List Field → Prop where
  | nil {pin : Pin} : Field.FoldAll pin [] []
  | item {pin : Pin} {e e' : Code} {fs fs' : List Field} (h : Code.Folds pin e e')
    (hr : Field.FoldAll pin fs fs') : Field.FoldAll pin (.item e :: fs) (.item e' :: fs')
  | named {pin : Pin} (x : String) {e e' : Code} {fs fs' : List Field} (h : Code.Folds pin e e')
    (hr : Field.FoldAll pin fs fs') : Field.FoldAll pin (.named x e :: fs) (.named x e' :: fs')
  | keyed {pin : Pin} {k k' e e' : Code} {fs fs' : List Field} (hk : Code.Folds pin k k')
    (h : Code.Folds pin e e') (hr : Field.FoldAll pin fs fs') :
    Field.FoldAll pin (.keyed k e :: fs) (.keyed k' e' :: fs')

/-- The same statements up to slots and to the declarations that keep them. -/
inductive Code.BlockFolds : Pin → List Code → List Code → Prop where
  | nil {pin : Pin} : Code.BlockFolds pin [] []
  | cons {pin : Pin} {e e' : Code} {b b' : List Code} (h : Code.Folds pin e e')
    (hr : Code.BlockFolds pin b b') : Code.BlockFolds pin (e :: b) (e' :: b')
  | keep {k k' : Code} {b b' : List Code} (h : Code.Folds .free k k')
    (hr : Code.BlockFolds .shared b b') :
    Code.BlockFolds .free (.bindLocal indexTemp k :: b) (.bindLocal indexTemp k' :: b')
  | pin {slot index : String} {b b' : List Code} (h : Succeeds slot index)
    (hr : Code.BlockFolds (.fixed slot) b b') :
    Code.BlockFolds .free b
      (.bindLocal indexTemp (.binary (.number index) .add (.integer 1)) :: b')

end

namespace Code

theorem Folds.isPure {pin : Pin} : {e e' : Code} → e.Folds pin e' → e.isPure = e'.isPure
  | _, _, .slot _ => rfl
  | _, _, .index ht hk => by simp only [Code.isPure, ht.isPure, hk.isPure]
  | _, _, .member ht _ => by simp only [Code.isPure, ht.isPure]
  | _, _, .binary hl _ hr => by simp only [Code.isPure, hl.isPure, hr.isPure]
  | _, _, .unary _ he => by simp only [Code.isPure, he.isPure]
  | _, _, .paren he => by simp only [Code.isPure, he.isPure]
  | _, _, .nil | _, _, .boolean _ | _, _, .number _ | _, _, .string _ | _, _, .name _ | _, _, .kept
  | _, _, .pinned _ | _, _, .call .. | _, _, .invoke .. | _, _, .table _ | _, _, .function _
  | _, _, .locals .. | _, _, .localFunction .. | _, _, .assign .. | _, _, .perform _
  | _, _, .returns _ | _, _, .block _ => rfl

variable {pin : Pin} {e e' : Code} {es es' b b' : List Code}

theorem Folds.isCall (h : e.Folds pin e') : e.isCall = e'.isCall := by
  cases h <;> rfl

theorem Folds.isReturn (h : e.Folds pin e') : e.isReturn = e'.isReturn := by
  cases h <;> rfl

theorem FoldAll.block (h : FoldAll .free b b') : BlockFolds .free b b' := by
  induction b generalizing b' with
  | nil =>
    cases h
    exact .nil
  | cons e b ih =>
    cases h with
    | cons h hr => exact .cons h (ih hr)

theorem FoldAll.append (h : FoldAll pin es es') (hb : FoldAll pin b b') :
    FoldAll pin (es ++ b) (es' ++ b') := by
  induction es generalizing es' with
  | nil =>
    cases h
    exact hb
  | cons e es ih =>
    cases h with
    | cons h hr => exact .cons h (ih hr)

end Code

theorem Code.name_not_mem {x : String} {es : List Code} (h : Code.AllAvoid [x] es) :
    Code.name x ∉ es := by
  induction es with
  | nil => exact List.not_mem_nil
  | cons e es ih =>
    intro hx
    rcases List.mem_cons.1 hx with rfl | hx
    · exact h.1 List.mem_cons_self
    · exact ih h.2 hx

mutual

/-- Code that does not use the variable for keys is the same in both programs. -/
theorem Code.folds_self : (e : Code) → e.Avoids [indexTemp] → e.Folds .free e
  | .nil, _ => .nil
  | .boolean b, _ => .boolean b
  | .number text, _ => .number text
  | .string s, _ => .string s
  | .name _, h => .name fun hx => h (List.mem_singleton.2 hx)
  | .index t k, h => .index (t.folds_self h.1) (k.folds_self h.2)
  | .member t x, h => .member (t.folds_self h) x
  | .call e es, h => .call (e.folds_self h.1) (Code.foldAll_self es h.2)
  | .invoke e x es, h => .invoke (e.folds_self h.1) x (Code.foldAll_self es h.2)
  | .binary l op r, h => .binary (l.folds_self h.1) op (r.folds_self h.2)
  | .unary op e, h => .unary op (e.folds_self h)
  | .table fs, h => .table (Field.foldAll_self fs h)
  | .function _ b, h => .function (Code.foldAll_self b h).block
  | .paren e, h => .paren (e.folds_self h)
  | .locals _ es, h => .locals (.inl rfl) (Code.foldAll_self es h)
  | .localFunction _ _ b, h => .localFunction (.inl rfl) (Code.foldAll_self b h).block
  | .assign ts es, h =>
    .assign (Code.foldAll_self ts h.1) (Code.name_not_mem h.1) (Code.foldAll_self es h.2)
  | .perform e, h => .perform (e.folds_self h)
  | .returns es, h => .returns (Code.foldAll_self es h)
  | .block b, h => .block (Code.foldAll_self b h).block

theorem Code.foldAll_self : (es : List Code) → Code.AllAvoid [indexTemp] es →
    Code.FoldAll .free es es
  | [], _ => .nil
  | e :: es, h => .cons (e.folds_self h.1) (Code.foldAll_self es h.2)

theorem Field.foldAll_self : (fs : List Field) → Field.AllAvoid [indexTemp] fs →
    Field.FoldAll .free fs fs
  | [], _ => .nil
  | .item e :: fs, h => .item (e.folds_self h.1) (Field.foldAll_self fs h.2)
  | .named x e :: fs, h => .named x (e.folds_self h.1) (Field.foldAll_self fs h.2)
  | .keyed k e :: fs, h =>
    .keyed (k.folds_self h.1.1) (e.folds_self h.1.2) (Field.foldAll_self fs h.2)

end

/-- Equal values; the bodies of functions may write their slots differently. -/
inductive Value.Folds : Value → Value → Prop where
  | plain (v : Value) (h : ∀ f, v ≠ .function f) : Folds v v
  | closure {id : Nat} {xs : List String} {b b' : List Code} {c : Chain}
    (hb : Code.BlockFolds .free b b') : Folds (.function ⟨id, xs, b, c⟩) (.function ⟨id, xs, b', c⟩)

namespace Value.Folds

variable {v v' : Value}

theorem nil : Folds .nil .nil := .plain _ fun _ h => by cases h

theorem boolean (b : Bool) : Folds (.boolean b) (.boolean b) := .plain _ fun _ h => by cases h

theorem number (x : Float) : Folds (.number x) (.number x) := .plain _ fun _ h => by cases h

theorem string (s : String) : Folds (.string s) (.string s) := .plain _ fun _ h => by cases h

theorem table (id : TableId) : Folds (.table id) (.table id) := .plain _ fun _ h => by cases h

theorem alike (h : v.Folds v') : v.Alike v' := by
  cases h with
  | plain => exact .same _
  | closure => exact .functions rfl

theorem getD {o o' : Option Value} (h : Option.Rel Value.Folds o o') :
    Value.Folds (o.getD .nil) (o'.getD .nil) := by
  cases h with
  | none => exact nil
  | some h => exact h

end Value.Folds

/-- What two scopes hold for the key of a place. -/
def Pin.Holds (s s' : Scope) : Pin → Prop
  | .free => True
  | .shared => ∃ v v', s.get? indexTemp = some v ∧ s'.get? indexTemp = some v' ∧ v.Folds v'
  | .fixed slot => ∃ x, floatOf? slot = some x ∧ s'.get? indexTemp = some (.number x)

/-- What is known of the scopes of two machines. -/
structure Pins where
  /-- All scopes below exist. -/
  opened : Nat
  pin : ScopeId → Pin

namespace Pins

variable (p : Pins) (n : ScopeId)

def push (p : Pins) (n : ScopeId) : Pins := { p with opened := n + 1 }

def set (p : Pins) (n : ScopeId) (pin : Pin) : Pins := { p with pin := Function.update p.pin n pin }

theorem set_self (pin : Pin) : (p.set n pin).pin n = pin := Function.update_self ..

theorem set_of_ne (pin : Pin) {i : ScopeId} (h : i ≠ n) : (p.set n pin).pin i = p.pin i :=
  Function.update_of_ne h ..

theorem set_set (pin pin' : Pin) : (p.set n pin).set n pin' = p.set n pin' := by
  simp only [set, Function.update_idem]

theorem set_eq {pin : Pin} (h : p.pin n = pin) : p.set n pin = p := by
  simp only [set, ← h, Function.update_eq_self]

end Pins

/-- Machines that agree on all tables and on all variables but the one for keys. -/
structure Machine.Folds (p : Pins) (m m' : Machine) : Prop where
  globals : OrderedMap.Pairs Value.Folds m.globals m'.globals
  scopes : ∀ i x, x ≠ indexTemp →
    Option.Rel Value.Folds ((m.scope i).get? x) ((m'.scope i).get? x)
  size : m.scopes.size = m'.scopes.size
  opened : p.opened ≤ m.scopes.size
  pins : ∀ i, (p.pin i).Holds (m.scope i) (m'.scope i)
  tables_size : m.tables.size = m'.tables.size
  tables : ∀ id, OrderedMap.Pairs Value.Folds (m.table id) (m'.table id)
  nextClosure : m.nextClosure = m'.nextClosure
  depth : m.depth = m'.depth

theorem Pin.Holds.insert {pin : Pin} {s s' : Scope} (h : pin.Holds s s') {x : String}
    (hx : pin = .free ∨ x ≠ indexTemp) (v v' : Value) :
    pin.Holds (s.insert x v) (s'.insert x v') := by
  rcases hx with rfl | hx
  · trivial
  · cases pin with
    | free => trivial
    | shared | fixed slot => simpa only [Holds, OrderedMap.get?_insert, if_neg hx] using h

namespace Machine.Folds

variable {p : Pins} {pin : Pin} {m m' : Machine} {n : ScopeId} {c : Chain} {x : String}
  {v v' : Value}

/-- Names other than the one for keys belong to the same scopes. -/
theorem owner? (h : m.Folds p m') (hx : x ≠ indexTemp) (c : Chain) :
    m'.owner? c x = m.owner? c x := by
  refine Machine.owner?_congr fun i _ => ?_
  have hr := h.scopes i x hx
  unfold OrderedMap.contains
  generalize (m.scope i).get? x = o, (m'.scope i).get? x = o' at hr
  cases hr <;> rfl

theorem lookup? (h : m.Folds p m') (hx : x ≠ indexTemp) (c : Chain) :
    Option.Rel Value.Folds (m.lookup? c x) (m'.lookup? c x) := by
  simp only [Machine.lookup?, h.owner? hx]
  cases m.owner? c x with
  | none => exact h.globals.get? x
  | some i => exact h.scopes i x hx

/-- Nothing is kept in a scope that does not exist yet. -/
theorem pin_fresh (h : m.Folds p m') : p.pin m.scopes.size = .free := by
  have hempty {m : Machine} {i : ScopeId} (hi : m.scopes.size ≤ i) : m.scope i = .empty := by
    rw [scope, Array.getElem?_eq_none hi]
    rfl
  have hp := h.pins m.scopes.size
  cases hpin : p.pin m.scopes.size with
  | free => rfl
  | shared =>
    rw [hpin] at hp
    obtain ⟨v, -, hv, -⟩ := hp
    rw [hempty (Nat.le_refl _)] at hv
    cases hv
  | fixed slot =>
    rw [hpin] at hp
    obtain ⟨x, -, hx⟩ := hp
    rw [hempty h.size.ge] at hx
    cases hx

theorem learn (h : m.Folds p m') (hn : pin.Holds (m.scope n) (m'.scope n)) :
    m.Folds (p.set n pin) m' :=
  { h with
    pins := fun i => by
      by_cases hi : i = n
      · rwa [hi, p.set_self]
      · rw [p.set_of_ne n pin hi]
        exact h.pins i }

/-- What is known of one scope may be forgotten. -/
theorem release (h : m.Folds p m') (n : ScopeId) : m.Folds (p.set n .free) m' := h.learn trivial

theorem declare (h : m.Folds p m') (hx : p.pin n = .free ∨ x ≠ indexTemp) (hv : v.Folds v')
    (c : Chain) : (m.declare (n :: c) x v).Folds p (m'.declare (n :: c) x v') :=
  { h with
    scopes := fun i y hy => by
      simp only [scope_declare, ← h.size]
      split
      · simp only [OrderedMap.get?_insert]
        split
        · exact .some hv
        · exact h.scopes i y hy
      · exact h.scopes i y hy
    size := by simpa only [Machine.declare, Array.size_modify] using h.size
    opened := by simpa only [Machine.declare, Array.size_modify] using h.opened
    pins := fun i => by
      simp only [scope_declare, ← h.size]
      split
      · next hi => exact (h.pins i).insert (hi.1 ▸ hx) v v'
      · exact h.pins i }

/-- Both programs keep a key. -/
theorem keep (h : m.Folds p m') (hn : n < p.opened) (hv : v.Folds v') (c : Chain) :
    (m.declare (n :: c) indexTemp v).Folds (p.set n .shared) (m'.declare (n :: c) indexTemp v') := by
  have hd := (h.release n).declare (c := c) (x := indexTemp) (.inl (p.set_self n .free)) hv
  have hlt : n < m.scopes.size := Nat.lt_of_lt_of_le hn h.opened
  rw [← p.set_set n .free .shared]
  refine hd.learn ⟨v, v', ?_, ?_, hv⟩
  · rw [scope_declare, if_pos ⟨rfl, hlt⟩, OrderedMap.get?_insert, if_pos rfl]
  · rw [scope_declare, if_pos ⟨rfl, h.size ▸ hlt⟩, OrderedMap.get?_insert, if_pos rfl]

/-- The second program keeps a slot that is a constant in the first. -/
theorem fix (h : m.Folds p m') (hn : n < p.opened) (hp : p.pin n = .free) {slot : String}
    {y : Float} (hy : floatOf? slot = some y) (c : Chain) :
    m.Folds (p.set n (.fixed slot)) (m'.declare (n :: c) indexTemp (.number y)) := by
  have hlt : n < m'.scopes.size := h.size ▸ Nat.lt_of_lt_of_le hn h.opened
  have hd : m.Folds p (m'.declare (n :: c) indexTemp (.number y)) :=
    { h with
      scopes := fun i z hz => by
        rw [scope_declare]
        split
        · rw [OrderedMap.get?_insert, if_neg hz.symm]
          exact h.scopes i z hz
        · exact h.scopes i z hz
      size := by simpa only [Machine.declare, Array.size_modify] using h.size
      pins := fun i => by
        by_cases hi : n = i
        · rw [← hi, hp]
          trivial
        · rw [scope_declare, if_neg fun e => hi e.1]
          exact h.pins i }
  refine hd.learn ⟨y, hy, ?_⟩
  rw [scope_declare, if_pos ⟨rfl, hlt⟩, OrderedMap.get?_insert, if_pos rfl]

theorem assign (h : m.Folds p m') (hx : x ≠ indexTemp) (hv : v.Folds v') (c : Chain) :
    (m.assign c x v).Folds p (m'.assign c x v') := by
  simp only [Machine.assign, h.owner? hx]
  cases m.owner? c x with
  | none => exact { h with globals := h.globals.insert x hv }
  | some i => exact h.declare (.inr hx) hv []

theorem declareAll (h : m.Folds p m') {xs : List String} (hx : p.pin n = .free ∨ indexTemp ∉ xs)
    {vs vs' : List Value} (hv : List.Forall₂ Value.Folds vs vs') (c : Chain) :
    (m.declareAll (n :: c) xs vs).Folds p (m'.declareAll (n :: c) xs vs') := by
  induction xs generalizing m m' vs vs' with
  | nil => exact h
  | cons x xs ih =>
    have hhead : p.pin n = .free ∨ x ≠ indexTemp :=
      hx.imp_right fun hx he => hx (he ▸ List.mem_cons_self)
    have htail := hx.imp_right fun hx he => hx (List.mem_cons_of_mem x he)
    cases hv with
    | nil => exact ih (h.declare hhead .nil c) htail .nil
    | cons hv hvs => exact ih (h.declare hhead hv c) htail hvs

theorem openScope (h : m.Folds p m') :
    Machine.Folds (p.push m.scopes.size) { m with scopes := m.scopes.push .empty }
      { m' with scopes := m'.scopes.push .empty } :=
  { h with
    scopes := fun i x hx => by
      simp only [scope, Machine.scope_push]
      exact h.scopes i x hx
    size := by simpa only [Array.size_push] using congrArg (· + 1) h.size
    opened := (Array.size_push ..).ge
    pins := fun i => by
      simp only [scope, Machine.scope_push]
      exact h.pins i }

theorem pop (h : m.Folds (p.push n) m') (hn : p.opened ≤ n + 1) : m.Folds p m' :=
  { h with opened := hn.trans h.opened }

theorem setTable (h : m.Folds p m') (id : TableId) {t t' : Table}
    (ht : OrderedMap.Pairs Value.Folds t t') : (m.setTable id t).Folds p (m'.setTable id t') :=
  { h with
    tables_size := by simpa only [Machine.size_setTable] using h.tables_size
    tables := Machine.setTable_pairs h.tables_size h.tables id ht }

theorem newTable (h : m.Folds p m') :
    Machine.Folds p { m with tables := m.tables.push .empty }
      { m' with tables := m'.tables.push .empty } :=
  { h with
    tables_size := by simpa using h.tables_size
    tables := Machine.pushTable_pairs h.tables_size h.tables }

end Machine.Folds

/-- By itself the value leads to no code that uses a reserved name. -/
def Value.Avoids (reserved : List String) : Value → Prop
  | .function f => Code.AllAvoid reserved f.body
  | _ => True

/-- No function of the machine uses a reserved name. -/
structure Machine.Avoids (reserved : List String) (m : Machine) : Prop where
  globals : m.globals.AllValues (Value.Avoids reserved)
  scopes : ∀ i, (m.scope i).AllValues (Value.Avoids reserved)
  tables : ∀ id, (m.table id).AllValues (Value.Avoids reserved)

theorem Machine.initial_avoids (reserved : List String) : Machine.initial.Avoids reserved where
  globals e he := by
    rcases List.mem_pair.1 he with rfl | rfl <;> trivial
  scopes _ _ he := absurd he List.not_mem_nil
  tables _ _ he := absurd he List.not_mem_nil

theorem Value.Avoids.folds {v : Value} (h : v.Avoids [indexTemp]) : v.Folds v := by
  cases v with
  | function f => exact .closure (Code.foldAll_self f.body h).block
  | _ => exact .plain _ fun _ h => by cases h

/-- Nothing is kept and nothing is known of any scope. -/
def Pins.none : Pins := ⟨0, fun _ => .free⟩

theorem Machine.Avoids.folds {m : Machine} (h : m.Avoids [indexTemp]) : m.Folds .none m where
  globals := .refl fun e he => (h.globals e he).folds
  scopes i x _ := by
    cases hx : (m.scope i).get? x with
    | none => exact .none
    | some v => exact .some (((h.scopes i).get? hx).folds)
  size := rfl
  opened := Nat.zero_le _
  pins _ := trivial
  tables_size := rfl
  tables id := .refl fun e he => (h.tables id e he).folds
  nextClosure := rfl
  depth := rfl

end ScriptToLua.Lua
